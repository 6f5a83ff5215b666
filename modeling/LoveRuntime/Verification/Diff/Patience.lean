import LoveRuntime.Verification.Diff.Myers

/-! # Patience

The anchors are places of both lists that match and ascend on both sides, so between them the lists are
shorter and the scripts of the parts spell the whole. -/

namespace LoveRuntime.Diff

open EditGraph

variable {α : Type} {a b : List α}

/-! ## The longest run -/

/-- One anchor stands before another in both lists. -/
def Before (p q : Anchor α) : Prop := p.i < q.i ∧ p.j < q.j

theorem Before.trans {p q r : Anchor α} (h : Before p q) (h' : Before q r) : Before p r :=
  ⟨h.1.trans h'.1, h.2.trans h'.2⟩

section Run

variable {ps : List (Anchor α)}

/-- What may come before the anchor at `t`: nothing, or an earlier one that is before it in `b`. -/
def Prev (ps : List (Anchor α)) (t : ℕ) (v : ℤ) : Prop :=
  v = -1 ∨ ∃ s < t, v = s ∧ ∃ p q, ps[s]? = some p ∧ ps[t]? = some q ∧ p.j < q.j

theorem dindex_natCast {l : List α} {i : ℕ} (h : i < l.length) : dindex l i = some l[i] := by
  rw [dindex, dindexGo_apply, if_pos (by omega), Int.sub_zero, Int.toNat_natCast,
    List.getElem?_eq_getElem h]

theorem gos_spec {ln : ℤ → Option ℕ} {t s bl : ℕ} {bp : ℤ} (ht : t < ps.length) (hbl : 0 < bl)
    (hbp : Prev ps t bp) :
    ∃ bl' bp', gos (dindex ps) ln t s bl bp = some (bl', bp') ∧ 0 < bl' ∧ Prev ps t bp' := by
  induction hn : t - s generalizing s bl bp with
  | zero =>
      rw [gos, dif_pos (by omega)]
      exact ⟨bl, bp, rfl, hbl, hbp⟩
  | succ n ih =>
      rw [gos, dif_neg (by omega), dindex_natCast ht, dindex_natCast (by omega : s < ps.length)]
      simp only [Option.bind_eq_bind, Option.bind_some]
      have hs : (s : ℤ) + 1 = (s + 1 : ℕ) := by omega
      rw [hs]
      by_cases hlt : ps[s].j < ps[t].j
      case pos =>
          rw [if_pos hlt]
          split
          case isTrue =>
              refine ih (by omega) (.inr ⟨s, by omega, rfl, ps[s], ps[t], ?_, ?_, hlt⟩) (by omega)
              all_goals exact List.getElem?_eq_getElem _
          case isFalse => exact ih hbl hbp (by omega)
      case neg =>
          rw [if_neg hlt, if_neg (by omega)]
          exact ih hbl hbp (by omega)

theorem chains_spec {t : ℕ} (ht : t ≤ ps.length) : ∃ ln pv, chains (dindex ps) t = some (ln, pv) ∧
    ∀ s < t, 0 < peep ln (s : ℤ) 0 ∧ Prev ps s (peep pv (s : ℤ) (-1)) := by
  induction t with
  | zero => exact ⟨_, _, rfl, by omega⟩
  | succ t ih =>
      obtain ⟨ln, pv, hc, hall⟩ := ih (by omega)
      obtain ⟨bl, bp, hg, hbl, hbp⟩ : ∃ bl bp, gos (dindex ps) ln t 0 1 (-1) = some (bl, bp) ∧ 0 < bl ∧
          Prev ps t bp := gos_spec (s := 0) (by omega) (by omega) (.inl rfl)
      refine ⟨pin ln t bl, pin pv t bp, ?_, fun s hs => ?_⟩
      · rw [chains, hc]
        simp only [Option.bind_eq_bind, Option.bind_some]
        rw [hg]
        rfl
      · by_cases hst : s = t
        · subst hst
          simp only [peep, pin_apply, if_true, Option.getD_some]
          exact ⟨hbl, hbp⟩
        · have hne : ¬(s : ℤ) = t := by omega
          simp only [peep, pin_apply, hne, if_false]
          exact hall s (by omega)

theorem gom_spec {ln : ℤ → Option ℕ} {n t best : ℕ} {bt : ℤ} (hln : ∀ s < n, 0 < peep ln (s : ℤ) 0)
    (hbt : bt < n) (h : 0 ≤ bt ∨ best = 0 ∧ t < n) : 0 ≤ gom ln n t best bt ∧ gom ln n t best bt < n := by
  induction hm : n - t generalizing t best bt with
  | zero =>
      rw [gom, dif_pos (by omega)]
      omega
  | succ m ih =>
      rw [gom, dif_neg (by omega)]
      have hc := hln t (by omega)
      dsimp only
      split
      · exact ih (by omega) (.inl (by omega)) (by omega)
      · exact ih hbt (.inl (by omega)) (by omega)

/-- Back from an anchor, each one before the next. -/
theorem gob_spec {pv : ℤ → Option ℤ} (hps : ps.Pairwise fun p q => p.i < q.i)
    (hpv : ∀ s < ps.length, Prev ps s (peep pv (s : ℤ) (-1))) {f : ℕ} {t : ℤ} {acc : List (Anchor α)}
    (hfuel : t + 1 < f) (hfuel0 : 0 < f) (hacc : acc.Pairwise Before) (hsub : acc ⊆ ps)
    (ht : t < 0 ∨ ∃ (i : ℕ) (p : Anchor α), t = i ∧ ps[i]? = some p ∧ ∀ q ∈ acc, Before p q) :
    ∃ qs, gob (dindex ps) pv f t acc = some qs ∧ qs.Pairwise Before ∧ qs ⊆ ps ∧
      (0 ≤ t ∨ acc ≠ [] → qs ≠ []) := by
  induction f generalizing t acc with
  | zero => omega
  | succ f ih =>
      rw [gob]
      by_cases hneg : t < 0
      case pos =>
          rw [if_pos hneg]
          exact ⟨acc, rfl, hacc, hsub, fun h => h.resolve_left (by omega)⟩
      case neg =>
          obtain ⟨i, p, rfl, hp, hall⟩ := ht.resolve_left hneg
          obtain ⟨hlt, hpi⟩ := List.getElem?_eq_some_iff.mp hp
          rw [if_neg hneg, dindex_natCast hlt, hpi]
          simp only [Option.bind_eq_bind, Option.bind_some]
          have hmem : p ∈ ps := hpi ▸ List.getElem_mem hlt
          have hcons : (p :: acc).Pairwise Before := List.pairwise_cons.mpr ⟨hall, hacc⟩
          have hsub' : p :: acc ⊆ ps := List.cons_subset.mpr ⟨hmem, hsub⟩
          have hbound : peep pv (i : ℤ) (-1) < i := by
            rcases hpv i hlt with h | ⟨s, hs, h, -⟩ <;> omega
          obtain ⟨qs, hq, hpair, hqs, hne⟩ := ih (t := peep pv (i : ℤ) (-1)) (by omega)
            (by omega) hcons hsub' (by
              rcases hpv i hlt with h | ⟨s, hs, h, p', q', hp', hq', hj⟩
              · exact .inl (by omega)
              · obtain ⟨hs', rfl⟩ := List.getElem?_eq_some_iff.mp hp'
                rw [hp] at hq'
                cases hq'
                have hi : ps[s].i < p.i := hpi ▸ List.pairwise_iff_getElem.mp hps s i hs' hlt hs
                refine .inr ⟨s, ps[s], h, hp', fun q hq => ?_⟩
                rcases List.mem_cons.mp hq with rfl | hq
                · exact ⟨hi, hj⟩
                · exact Before.trans ⟨hi, hj⟩ (hall q hq))
          exact ⟨qs, hq, hpair, hqs, fun _ => hne (.inr (List.cons_ne_nil _ _))⟩

/-- The anchors kept are some of those there are, each before the next in both lists. -/
theorem dlis_spec (hps : ps.Pairwise fun p q => p.i < q.i) (hne : ps ≠ []) :
    ∃ qs, dlis ps = some qs ∧ qs.Pairwise Before ∧ qs ⊆ ps ∧ qs ≠ [] := by
  have hpos := List.length_pos_iff.mpr hne
  obtain ⟨ln, pv, hc, hall⟩ := chains_spec (le_refl ps.length)
  obtain ⟨h0, hlt⟩ : 0 ≤ gom ln ps.length 0 0 (-1) ∧ gom ln ps.length 0 0 (-1) < ps.length :=
    gom_spec (fun s hs => (hall s hs).1) (by omega) (.inr ⟨rfl, hpos⟩)
  generalize hg : gom ln ps.length 0 0 (-1) = g at h0 hlt
  have hi : g.toNat < ps.length := by omega
  obtain ⟨qs, hq, hpair, hsub, hqne⟩ := gob_spec hps (fun s hs => (hall s hs).2) (f := ps.length + 1)
    (t := g) (by omega) (by omega) .nil (List.nil_subset ps)
    (.inr ⟨g.toNat, ps[g.toNat], by omega, List.getElem?_eq_getElem hi, fun q hq => by cases hq⟩)
  refine ⟨qs, ?_, hpair, hsub, hqne (.inl h0)⟩
  rw [dlis, hc]
  simp only [Option.bind_eq_bind, Option.bind_some]
  rw [hg, hq]

end Run

/-! ## Anchors -/

/-- An anchor's places match, `love` and `bi` behind. -/
def Anchored [Setoid α] (a b : List α) (love bi : ℕ) (p : Anchor α) : Prop :=
  love ≤ p.i ∧ bi ≤ p.j ∧ a[p.i - love]? = some p.e ∧ ∃ v, b[p.j - bi]? = some v ∧ p.e ≈ v

theorem anchorsA_spec (bj : α → Option ℕ) {m : List α} {i : ℕ} (acc : List (Anchor α))
    (hm : ∀ k (u : α), m[k]? = some u → a[i + k]? = some u) (hacc : acc.reverse.Pairwise fun p q => p.i < q.i)
    (hall : ∀ p ∈ acc, p.i < i ∧ a[p.i]? = some p.e ∧ bj p.e = some p.j) :
    (anchorsA bj m i acc).Pairwise (fun p q => p.i < q.i) ∧
      ∀ p ∈ anchorsA bj m i acc, a[p.i]? = some p.e ∧ bj p.e = some p.j := by
  induction m generalizing i acc with
  | nil => exact ⟨hacc, fun p hp => (hall p (List.mem_reverse.mp hp)).2⟩
  | cons e m ih =>
      have hnext k (u : α) (h : m[k]? = some u) : a[i + 1 + k]? = some u := by
        rw [show i + 1 + k = i + (k + 1) by omega]
        exact hm (k + 1) u h
      rw [anchorsA]
      cases hj : bj e with
      | none => exact ih acc hnext hacc fun p hp => ⟨by have := (hall p hp).1; omega, (hall p hp).2⟩
      | some j =>
          refine ih _ hnext ?_ fun p hp => ?_
          · rw [List.reverse_cons, List.pairwise_append]
            refine ⟨hacc, List.pairwise_singleton _ _, fun p hp q hq => ?_⟩
            obtain rfl := List.mem_singleton.mp hq
            exact (hall p (List.mem_reverse.mp hp)).1
          · rcases List.mem_cons.mp hp with rfl | hp
            · exact ⟨Nat.lt_succ_self i, hm 0 e rfl, hj⟩
            · exact ⟨by have := (hall p hp).1; omega, (hall p hp).2⟩

section

variable [Setoid α] [DecidableRel (α := α) (· ≈ ·)]

theorem anchorsB_spec {ca cb : α → Option ℕ} {m : List α} {j : ℕ} {bj : α → Option ℕ}
    (hm : ∀ k (u : α), m[k]? = some u → b[j + k]? = some u)
    (hbj : ∀ x i, bj x = some i → ∃ v, b[i]? = some v ∧ x ≈ v) {x : α} {i : ℕ}
    (h : anchorsB ca cb m j bj x = some i) : ∃ v, b[i]? = some v ∧ x ≈ v := by
  induction m generalizing j bj with
  | nil => exact hbj x i h
  | cons e m ih =>
      refine ih (fun k u hk => ?_) (fun y i' hy => ?_) h
      · rw [show j + 1 + k = j + (k + 1) by omega]
        exact hm (k + 1) u hk
      · split at hy
        case isFalse => exact hbj y i' hy
        case isTrue =>
            rw [pinElem] at hy
            split at hy
            case isTrue hye =>
                cases hy
                exact ⟨e, hm 0 e rfl, hye⟩
            case isFalse => exact hbj y i' hy

theorem danchors_spec (a b : List α) : (danchors a b).Pairwise (fun p q => p.i < q.i) ∧
    ∀ p ∈ danchors a b, Anchored a b 0 0 p := by
  obtain ⟨hpair, hall⟩ := anchorsA_spec (a := a) (anchorsB (dcensus a) (dcensus b) b 0 fun _ => none)
    (m := a) (i := 0) [] (fun k u h => by rwa [Nat.zero_add]) .nil (by simp)
  refine ⟨hpair, fun p hp => ?_⟩
  obtain ⟨ha, hj⟩ := hall p hp
  exact ⟨Nat.zero_le _, Nat.zero_le _, ha,
    anchorsB_spec (fun k u h => by rwa [Nat.zero_add]) (fun x i h => by cases h) hj⟩

/-! ## The parts of a script -/

theorem dpre_spec (a b : List α) (ks : Script α) : ∃ p q s, a = p ++ (dpre a b ks).1 ∧
    b = q ++ (dpre a b ks).2.1 ∧ (dpre a b ks).2.2 = s.reverse ++ ks ∧ Spells p q s := by
  fun_induction dpre a b ks with
  | case1 x a y b ks hxy ih =>
      obtain ⟨p, q, s, hp, hq, hs, hsp⟩ := ih
      refine ⟨x :: p, y :: q, (.keep, x) :: s, ?_, ?_, ?_, ?_⟩
      · rw [List.cons_append, ← hp]
      · rw [List.cons_append, ← hq]
      · rw [hs]
        simp
      · exact ⟨by rw [old_keep, hsp.old], .cons hxy hsp.new⟩
  | case2 x a y b ks hxy => exact ⟨[], [], [], rfl, rfl, rfl, rfl, .nil⟩
  | case3 a b ks h => exact ⟨[], [], [], rfl, rfl, rfl, rfl, .nil⟩

/-- The peeled are keeps, and what is behind them begins otherwise on both sides. -/
theorem dpre_peels (a b : List α) (ks : Script α) (hks : ∀ o ∈ ks, o.1 = .keep) :
    (∀ o ∈ (dpre a b ks).2.2, o.1 = .keep) ∧ ∀ u x v y, (dpre a b ks).1 = u :: x → (dpre a b ks).2.1 = v :: y →
      ¬u ≈ v := by
  fun_induction dpre a b ks with
  | case1 x a y b ks hxy ih =>
      refine ih fun o ho => ?_
      rcases List.mem_cons.mp ho with rfl | ho
      · rfl
      · exact hks o ho
  | case2 x a y b ks hxy =>
      refine ⟨hks, fun u x' v y' hu hv => ?_⟩
      cases hu
      cases hv
      exact hxy
  | case3 a b ks h => exact ⟨hks, fun u x v y hu hv => absurd hv (h u x v y hu)⟩

/-- How many elements the ends of two lists share, behind what their beginnings share. -/
def sharedEnd (a b : List α) : ℕ :=
  let r := dpre a b []
  (dpre r.1.reverse r.2.1.reverse []).2.2.length

omit [DecidableRel (α := α) (· ≈ ·)] in
/-- The anchors split both lists into shorter ones. -/
theorem dsplit_spec {rec : List α → List α → Option (Script α)} {n : ℕ}
    (hrec : ∀ a b : List α, a.length + b.length < n → ∃ s, rec a b = some s ∧ Spells a b s)
    {love bi : ℕ} {qs : List (Anchor α)} (hqs : qs.Pairwise Before)
    (hall : ∀ q ∈ qs, Anchored a b love bi q) (hn : a.length + b.length ≤ n)
    (hlt : qs = [] → a.length + b.length < n) :
    ∃ s, dsplit rec a b love bi qs = some s ∧ Spells a b s := by
  induction qs generalizing a b love bi with
  | nil => exact hrec a b (hlt rfl)
  | cons q qs ih =>
      obtain ⟨hi, hj, hu, v, hv, huv⟩ := hall q List.mem_cons_self
      have hla := (List.getElem?_eq_some_iff.mp hu).1
      have hlb := (List.getElem?_eq_some_iff.mp hv).1
      obtain ⟨hbefore, hqs'⟩ := List.pairwise_cons.mp hqs
      obtain ⟨s, hs, hsp⟩ := hrec (a.take (q.i - love)) (b.take (q.j - bi)) (by simp; omega)
      have hnext : ∀ r ∈ qs, Anchored (a.drop (q.i - love + 1)) (b.drop (q.j - bi + 1)) (q.i + 1) (q.j + 1) r := by
        intro r hr
        obtain ⟨hri, hrj⟩ := hbefore r hr
        obtain ⟨-, -, hru, w, hrw, huw⟩ := hall r (List.mem_cons_of_mem q hr)
        refine ⟨hri, hrj, ?_, w, ?_, huw⟩
        · rw [List.getElem?_drop, show q.i - love + 1 + (r.i - (q.i + 1)) = r.i - love by omega, hru]
        · rw [List.getElem?_drop, show q.j - bi + 1 + (r.j - (q.j + 1)) = r.j - bi by omega, hrw]
      obtain ⟨t, ht, htp⟩ := ih hqs' hnext (by simp; omega) (by simp; omega)
      refine ⟨s ++ (.keep, q.e) :: t, ?_, ?_⟩
      · rw [dsplit, hs]
        simp only [Option.bind_eq_bind, Option.bind_some]
        rw [ht]
        rfl
      · have hsplit {l : List α} {i : ℕ} {u : α} (h : l[i]? = some u) : l.take i ++ u :: l.drop (i + 1) = l := by
          obtain ⟨hlt, rfl⟩ := List.getElem?_eq_some_iff.mp h
          rw [← List.drop_eq_getElem_cons hlt, List.take_append_drop]
        have hkeep : Spells (q.e :: a.drop (q.i - love + 1)) (v :: b.drop (q.j - bi + 1)) ((.keep, q.e) :: t) :=
          ⟨by rw [old_keep, htp.old], .cons huv htp.new⟩
        have := hsp.append hkeep
        rwa [hsplit hu, hsplit hv] at this

omit [Setoid α] [DecidableRel (α := α) (· ≈ ·)] in
theorem dsplit_mono {rec rec' : List α → List α → Option (Script α)}
    (hrec : ∀ a b s, rec a b = some s → rec' a b = some s) {love bi : ℕ} {qs : List (Anchor α)} {s : Script α}
    (h : dsplit rec a b love bi qs = some s) : dsplit rec' a b love bi qs = some s := by
  induction qs generalizing a b love bi s with
  | nil => exact hrec a b s h
  | cons q qs ih =>
      rw [dsplit] at h ⊢
      simp only [Option.bind_eq_bind, Option.bind_eq_some_iff] at h ⊢
      obtain ⟨s₁, hs₁, s₂, hs₂, hs⟩ := h
      exact ⟨s₁, hrec _ _ _ hs₁, s₂, ih hs₂, hs⟩

theorem myers_mono {fuel fuel' : ℕ} {s : Script α} (h : myers fuel a b = some s) (hle : fuel ≤ fuel') :
    myers fuel' a b = some s := by
  simp only [myers, Option.bind_eq_bind, Option.bind_eq_some_iff] at h ⊢
  obtain ⟨r, hr, hs⟩ := h
  exact ⟨r, dfwd_mono hr hle, hs⟩

theorem dmid_mono {fuel fuel' : ℕ} {rec rec' : List α → List α → Option (Script α)} {s : Script α}
    (hle : fuel ≤ fuel') (hrec : ∀ a b s, rec a b = some s → rec' a b = some s)
    (h : dmid fuel rec a b = some s) : dmid fuel' rec' a b = some s := by
  rw [dmid] at h ⊢
  split at h
  case h_1 heq => exact myers_mono h hle
  case h_2 ps hne =>
      simp only [Option.bind_eq_bind, Option.bind_eq_some_iff] at h ⊢
      obtain ⟨qs, hqs, hsplit⟩ := h
      exact ⟨qs, hqs, dsplit_mono hrec hsplit⟩

/-- A script that some depth suffices for stays. -/
theorem patience_mono {fuel fuel' : ℕ} {s : Script α} (h : patience fuel a b = some s) (hle : fuel ≤ fuel') :
    patience fuel' a b = some s := by
  induction fuel generalizing fuel' a b s with
  | zero => cases h
  | succ fuel ih =>
      obtain ⟨fuel', rfl⟩ : ∃ f, fuel' = f + 1 := ⟨fuel' - 1, by omega⟩
      rw [patience] at h ⊢
      simp only [Option.bind_eq_bind, Option.bind_eq_some_iff] at h ⊢
      obtain ⟨mid, hmid, hs⟩ := h
      exact ⟨mid, dmid_mono hle (fun a b s hs => ih hs (by omega)) hmid, hs⟩

theorem dmid_spec (fuel : ℕ) (rec : List α → List α → Option (Script α)) {n : ℕ}
    (hrec : ∀ a b : List α, a.length + b.length < n → ∃ s, rec a b = some s ∧ Spells a b s)
    (hfuel : a.length + b.length < fuel) (hn : a.length + b.length ≤ n) :
    ∃ s, dmid fuel rec a b = some s ∧ Spells a b s := by
  obtain ⟨hpair, hall⟩ := danchors_spec a b
  rw [dmid]
  split
  case h_1 =>
      obtain ⟨s, hs, hsp, -⟩ := myers_spec a b
      exact ⟨s, hs _ hfuel, hsp⟩
  case h_2 ps hne =>
      obtain ⟨qs, hqs, hbefore, hsub, hqne⟩ := dlis_spec hpair hne
      rw [hqs]
      exact dsplit_spec hrec hbefore (fun q hq => hall q (hsub hq)) hn fun h => absurd h hqne

/-- What patience peels off two lists, and what it leaves. -/
structure Peeled (a b p q mid mid' p' q' : List α) (ks ks' : Script α) : Prop where
  left : a = p ++ (mid ++ p')
  right : b = q ++ (mid' ++ q')
  front : Spells p q ks
  back : Spells p' q' ks'
  keeps : (∀ o ∈ ks, o.1 = .keep) ∧ ∀ o ∈ ks', o.1 = .keep
  shared : ks'.length = sharedEnd a b
  last : ∀ m u m' v, mid = m ++ [u] → mid' = m' ++ [v] → ¬u ≈ v
  run : ∀ fuel, patience (fuel + 1) a b =
    (dmid (fuel + 1) (patience fuel) mid mid').bind fun s => some (ks ++ s ++ ks')

/-- Patience peels both ends, and what is between them is no longer. -/
theorem peel_spec (a b : List α) : ∃ p q mid mid' p' q' ks ks', Peeled a b p q mid mid' p' q' ks ks' := by
  obtain ⟨p, q, ks, ha, hb, hks, hpre⟩ := dpre_spec a b []
  have hpeels := (dpre_peels a b [] (by simp)).1
  generalize hdp : dpre a b [] = r at ha hb hks hpeels
  obtain ⟨a1, b1, pre⟩ := r
  obtain ⟨p', q', ks', ha', hb', hks', hsuf⟩ := dpre_spec a1.reverse b1.reverse []
  obtain ⟨hkeeps, hheads⟩ := dpre_peels a1.reverse b1.reverse [] (by simp)
  generalize hds : dpre a1.reverse b1.reverse [] = r at ha' hb' hks' hkeeps hheads
  obtain ⟨ra, rb, suf⟩ := r
  simp only [List.append_nil] at ha hb hks ha' hb' hks' hkeeps hheads
  refine ⟨p, q, ra.reverse, rb.reverse, p'.reverse, q'.reverse, ks, ks'.reverse, ?_, ?_, hpre, hsuf.reverse,
    ⟨fun o ho => hpeels o ?_, fun o ho => hkeeps o (hks' ▸ ho)⟩, ?_, fun m u m' v hu hv => hheads u m.reverse v m'.reverse ?_ ?_,
    fun fuel => ?_⟩
  · rw [ha, ← List.reverse_append, ← ha', List.reverse_reverse]
  · rw [hb, ← List.reverse_append, ← hb', List.reverse_reverse]
  · simpa [hks] using ho
  · rw [sharedEnd, hdp]
    simp only [hds, hks']
  · rw [← List.reverse_reverse ra, hu, List.reverse_append]
    rfl
  · rw [← List.reverse_reverse rb, hv, List.reverse_append]
    rfl
  · rw [patience, hdp]
    simp only [hds, hks, hks', List.reverse_reverse]
    rfl

/-- Patience answers a script that spells both lists. -/
theorem patience_spec {fuel : ℕ} (hfuel : a.length + b.length < fuel) :
    ∃ s, patience fuel a b = some s ∧ Spells a b s := by
  induction fuel generalizing a b with
  | zero => omega
  | succ fuel ih =>
      obtain ⟨p, q, mid, mid', p', q', ks, ks', rfl, rfl, hpre, hsuf, -, -, -, hrun⟩ := peel_spec a b
      simp only [List.length_append] at hfuel
      obtain ⟨s, hs, hsp⟩ := dmid_spec (fuel + 1) (patience fuel) (a := mid) (b := mid')
        (n := mid.length + mid'.length) (fun a b hab => ih (by omega)) (by omega) le_rfl
      refine ⟨ks ++ s ++ ks', by rw [hrun, hs]; rfl, ?_⟩
      rw [List.append_assoc]
      exact hpre.append (hsp.append hsuf)

/-- Both diffs end with a script that spells the two lists, no read outside them, and that of `myers` has
the fewest edits there can be: all elements but twice a longest common subsequence's. -/
theorem scripts_faithful (a b : List α) : ∃ s t,
    (∀ fuel, a.length + b.length < fuel → myers fuel a b = some s ∧ patience fuel a b = some t) ∧
    (dold s = a ∧ List.Forall₂ (· ≈ ·) (dnew s) b) ∧ (dold t = a ∧ List.Forall₂ (· ≈ ·) (dnew t) b) ∧
    (∀ u, dold u = a → List.Forall₂ (· ≈ ·) (dnew u) b → dcost s ≤ dcost u) ∧
    ∃ l, IsGreatest {n | Common a b n} l ∧ dcost s + 2 * l = a.length + b.length := by
  obtain ⟨s, hs, hsp, hmin⟩ := myers_spec a b
  obtain ⟨t, ht, htp⟩ := patience_spec (Nat.lt_succ_self (a.length + b.length))
  obtain ⟨hshort, hlcs⟩ := hsp.shortest hmin
  exact ⟨s, t, fun fuel hfuel => ⟨hs fuel hfuel, patience_mono ht hfuel⟩, ⟨hsp.old, hsp.new⟩,
    ⟨htp.old, htp.new⟩, fun u hu hu' => hshort u ⟨hu, hu'⟩, _, hlcs, hsp.edits_eq⟩

end

end LoveRuntime.Diff
