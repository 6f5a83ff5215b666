import LoveRuntime.Model.Lr
import Mathlib.Tactic.SplitIfs

/-! The look. What `lr_takes` follows to an end it answers the same after the reduction it
starts with: the overlay stands for states that are then on the stack. -/

namespace LoveRuntime.Lr

variable {h : Bytes} {kind : ℕ}

/-- The stack after the reduction `a`. -/
def reduced (h : Bytes) (a : ℕ) (st : List ℕ) : List ℕ :=
  goto h (rlhs h (a - 0x8000)) (lrTop [] (st.drop (rlen h (a - 0x8000)))) :: st.drop (rlen h (a - 0x8000))

theorem lrTop_append (ov ov' st : List ℕ) : lrTop ov (ov' ++ st) = lrTop (ov ++ ov') st := by
  rw [lrTop, lrTop, List.append_assoc]

/-- Dropping off an overlay and then off the stack under it. -/
theorem drop_split (ov ov' st : List ℕ) (L k k' : ℕ)
    (hk : k = if L < (ov ++ ov').length then L else (ov ++ ov').length)
    (hk' : k' = if L < ov.length then L else ov.length) :
    (ov ++ ov').drop k = ov.drop k' ++ ov'.drop (L - k') ∧
      (ov' ++ st).drop (L - k') = ov'.drop (L - k') ++ st.drop (L - k) := by
  rw [List.length_append] at hk
  rw [List.drop_append, List.drop_append]
  have hdrop : L - k' - ov'.length = L - k := by
    split at hk <;> split at hk' <;> omega
  have hov : ov.drop k = ov.drop k' := by
    by_cases hL : L < ov.length
    · rw [if_pos (by omega)] at hk
      rw [if_pos hL] at hk'
      rw [hk, hk']
    · have hle : ov.length ≤ k := by split at hk <;> omega
      rw [if_neg hL] at hk'
      rw [List.drop_of_length_le hle, List.drop_of_length_le (by omega)]
  have hov' : ov'.drop (k - ov.length) = ov'.drop (L - k') := by
    by_cases hL : L < ov.length + ov'.length
    · rw [if_pos hL] at hk
      have hkk : k - ov.length = L - k' := by split at hk' <;> omega
      rw [hkk]
    · rw [if_neg hL] at hk
      have hle : ov'.length ≤ L - k' := by split at hk' <;> omega
      rw [List.drop_of_length_le (by omega), List.drop_of_length_le hle]
  exact ⟨by rw [hov, hov'], by rw [hdrop]⟩

/-- The lower part of the overlay may lie on the stack. -/
theorem lrFollow_merge {b : Bool} (n : ℕ) (ov ov' st : List ℕ) (hst : 0 < st.length)
    (hlen : (ov ++ ov').length ≤ 64) (hb : lrFollow h kind n (ov ++ ov') st = some b) :
    lrFollow h kind n ov (ov' ++ st) = some b := by
  induction n generalizing ov ov' st with
  | zero => cases hb
  | succ n ih =>
      rw [lrFollow] at hb ⊢
      rw [lrTop_append]
      simp only at hb ⊢
      split
      next hS => rwa [if_pos hS] at hb
      next hS =>
        rw [if_neg hS] at hb
        split
        next ha => rwa [if_pos ha] at hb
        next ha =>
          rw [if_neg ha] at hb
          split
          next hshift => rwa [if_pos hshift] at hb
          next hshift =>
            rw [if_neg hshift] at hb
            generalize action h (lrTop (ov ++ ov') st) kind - 0x8000 = r at hb ⊢
            generalize (if r < tabR h then rlen h r else 0) = L at hb ⊢
            obtain ⟨k, hk⟩ : ∃ k, k = if L < (ov ++ ov').length then L else (ov ++ ov').length := ⟨_, rfl⟩
            obtain ⟨k', hk'⟩ : ∃ k, k = if L < ov.length then L else ov.length := ⟨_, rfl⟩
            obtain ⟨hov, hst'⟩ := drop_split ov ov' st L k k' hk hk'
            rw [← hk, hov] at hb
            rw [← hk', hst']
            have hpop : (ov' ++ st).length ≤ L - k' ↔ st.length ≤ L - k := by
              rw [List.length_append] at hk ⊢
              split at hk <;> split at hk' <;> omega
            split
            next hshort => rwa [if_pos (hpop.mp hshort)] at hb
            next hshort =>
              rw [if_neg (mt hpop.mpr hshort)] at hb
              have hfit : (ov.drop k' ++ ov'.drop (L - k')).length ≤ 64 := by
                rw [← hov, List.length_drop]
                omega
              by_cases hfull : (ov.drop k' ++ ov'.drop (L - k')).length = 64
              · rw [if_pos hfull] at hb
                cases hb
              · rw [if_neg hfull] at hb
                rw [if_neg (by rw [List.length_append] at hfull hfit; omega), lrTop_append]
                refine ih _ _ _ ?_ ?_ hb
                · rw [List.length_drop]
                  omega
                · rw [List.cons_append, List.length_cons]
                  omega

theorem lrFollow_succ {b : Bool} (n : ℕ) (ov st : List ℕ) (hb : lrFollow h kind n ov st = some b) :
    lrFollow h kind (n + 1) ov st = some b := by
  induction n generalizing ov st with
  | zero => cases hb
  | succ n ih =>
      rw [lrFollow] at hb ⊢
      simp only at hb ⊢
      split
      next hS => rwa [if_pos hS] at hb
      next hS =>
        rw [if_neg hS] at hb
        split
        next ha => rwa [if_pos ha] at hb
        next ha =>
          rw [if_neg ha] at hb
          split
          next hshift => rwa [if_pos hshift] at hb
          next hshift =>
            rw [if_neg hshift] at hb
            generalize action h (lrTop ov st) kind - 0x8000 = r at hb ⊢
            generalize (if r < tabR h then rlen h r else 0) = L at hb ⊢
            generalize (if L < ov.length then L else ov.length) = k at hb ⊢
            split
            next hshort => rwa [if_pos hshort] at hb
            next hshort =>
              rw [if_neg hshort] at hb
              split
              next hfull =>
                rw [if_pos hfull] at hb
                cases hb
              next hfull =>
                rw [if_neg hfull] at hb
                exact ih _ _ hb

/-- A chain followed to its end ends the same after its first reduction. -/
theorem lrFollow_reduced {b : Bool} {st : List ℕ} (hS : lrTop [] st < tabS h)
    (ha : 0x8000 ≤ action h (lrTop [] st) kind) (hr : action h (lrTop [] st) kind - 0x8000 < tabR h)
    (hL : rlen h (action h (lrTop [] st) kind - 0x8000) < st.length)
    (hb : lrFollow h kind 256 [] st = some b) :
    lrFollow h kind 256 [] (reduced h (action h (lrTop [] st) kind) st) = some b := by
  have hne : action h (lrTop [] st) kind ≠ 0 := by omega
  have hfull : ¬ 0 = 64 := by decide
  rw [lrFollow] at hb
  simp only [if_neg (Nat.not_le.mpr hS), if_neg hne, if_neg (Nat.not_lt.mpr ha), if_pos hr, List.length_nil,
    Nat.not_lt_zero, if_false, Nat.sub_zero, if_neg (Nat.not_le.mpr hL), List.drop_nil, if_neg hfull] at hb
  refine lrFollow_succ 255 [] _ (lrFollow_merge 255 [] [_] _ ?_ ?_ hb)
  · rw [List.length_drop]
    omega
  · rw [List.nil_append, List.length_singleton]
    decide

end LoveRuntime.Lr

/-! A run cut into slices and the run without a budget, each in step with a run that asks
for the look at every turn. -/

namespace LoveRuntime.Lr

variable {t k : Bytes} {say : ℕ → ℕ} {w w' v v' : Walk}

/-- The look forgotten, as where a slice ends. -/
def Walk.calm (w : Walk) : Walk := { w with look := 0xffff }

/-- The look as the caller says it. -/
def Walk.said (say : ℕ → ℕ) (w : Walk) : Walk := { w with look := say w.pos }

/-- A turn with the look asked for anew. -/
def next (t k : Bytes) (say : ℕ → ℕ) (w : Walk) : Except Status Walk := (step t k (w.said say)).map Walk.calm

/-- What the caller says is a kind or a pair of kinds. -/
def Says (say : ℕ → ℕ) : Prop := ∀ pos, say pos < 65536 + 65536 * 65536

/-- The states of the run without a budget. -/
inductive Passes (t k : Bytes) (say : ℕ → ℕ) : Walk → Prop where
  | start : Passes t k say start
  | turn {w w' : Walk} : Passes t k say w → step t k w = .ok w' → Passes t k say w'
  | say {w : Walk} : Passes t k say w → step t k w = .error .say → Passes t k say (w.said say)

/-- What a reduction from the stack `st` to `st'` does to the look at a pair of kinds: the first
was seen to shift, or `lr_takes` answers for it as before. -/
def Keeps (t : Bytes) (pair : ℕ) (st st' : List ℕ) : Prop :=
  lrFollow t (pair % 65536) 256 [] st = some true ∨
    lrTakes t st' (pair % 65536) = lrTakes t st (pair % 65536)

/-- No reduction of the run made under a pair of kinds changes a no of `lr_takes`, or a yes it
gave for want of room. -/
def Steady (t k : Bytes) (say : ℕ → ℕ) : Prop :=
  ∀ w w', Passes t k say w → step t k w = .ok w' → w'.pos = w.pos → kindAt k w.pos = 0xffff →
    0xffff < say w.pos → Keeps t (say w.pos) w.st w'.st

/-- A look that asking again would give. -/
def Apt (t k : Bytes) (say : ℕ → ℕ) (w : Walk) : Prop :=
  w.look = 0xffff ∨
    kindAt k w.pos = 0xffff ∧ (w.look = say w.pos ∨ w.look = resolve t w.st (say w.pos))

/-! ### One turn -/

@[simp] theorem calm_calm (w : Walk) : w.calm.calm = w.calm := rfl

@[simp] theorem calm_said (say : ℕ → ℕ) (w : Walk) : (w.said say).calm = w.calm := rfl

@[simp] theorem said_calm (say : ℕ → ℕ) (w : Walk) : w.calm.said say = w.said say := rfl

theorem resolve_lt (hword : Says say) (st : List ℕ) (pos : ℕ) : resolve t st (say pos) ≤ 0xffff := by
  have := hword pos
  rw [resolve]
  split
  · split <;> omega
  · omega

theorem resolve_resolve (hword : Says say) (st : List ℕ) (pos : ℕ) :
    resolve t st (resolve t st (say pos)) = resolve t st (say pos) := by
  rw [resolve, if_neg (Nat.not_lt.mpr (resolve_lt hword st pos))]

/-- What a turn does that ends well. -/
theorem step_cases (h : step t k w = .ok w') :
    lrTop [] w.st < tabS t ∧ ∃ kind look, lookAt t k w (lrTop [] w.st) = some (kind, look) ∧
      (w' = { w with
          pos := w.pos + 1, st := action t (lrTop [] w.st) kind :: w.st, look := 0xffff,
          read := kind :: w.read } ∧ action t (lrTop [] w.st) kind < 0x8000 ∨
        w' = { w with
          st := reduced t (action t (lrTop [] w.st) kind) w.st, look := look,
          log := (action t (lrTop [] w.st) kind - 0x8000, w.pos) :: w.log } ∧
        0x8000 ≤ action t (lrTop [] w.st) kind ∧ action t (lrTop [] w.st) kind - 0x8000 < tabR t ∧
        rlen t (action t (lrTop [] w.st) kind - 0x8000) < w.st.length) := by
  rw [step] at h
  simp only at h
  split at h
  next => cases h
  next hS =>
    refine ⟨Nat.not_le.mp hS, ?_⟩
    split at h
    next => cases h
    next kind look hlook =>
      refine ⟨kind, look, hlook, ?_⟩
      split at h
      next => cases h
      next ha =>
        split at h
        next hshift =>
          split at h
          next => cases h
          next =>
            cases h
            exact Or.inl ⟨rfl, hshift⟩
        next hshift =>
          by_cases hr : action t (lrTop [] w.st) kind - 0x8000 < tabR t
          · simp only [if_pos hr] at h
            split at h
            next => cases h
            next hL =>
              cases h
              exact Or.inr ⟨rfl, Nat.not_lt.mp hshift, hr, Nat.not_le.mp hL⟩
          · simp only [if_neg hr, Nat.le_refl, if_true] at h
            cases h

/-- A turn depends on the look through the kind it gives. -/
theorem step_look {s kind look l : ℕ} (hs : s = lrTop [] w.st) (hw : lookAt t k w s = some (kind, look))
    (hv : lookAt t k (w.said say) s = some (kind, l)) :
    (step t k w).map Walk.calm = (step t k (w.said say)).map Walk.calm := by
  subst hs
  obtain ⟨pos, st, look₀, log, read⟩ := w
  simp only [Walk.said] at hw hv ⊢
  simp only [step, hw, hv]
  split_ifs <;> rfl

/-- With an apt look a turn is one that asks anew. -/
theorem next_calm (hword : Says say) (ha : Apt t k say w) (h : step t k w ≠ .error .say) :
    next t k say w.calm = (step t k w).map Walk.calm := by
  rw [next, said_calm]
  cases hlook : lookAt t k w (lrTop [] w.st) with
  | none =>
      by_cases hS : tabS t ≤ lrTop [] w.st
      · have hv : tabS t ≤ lrTop [] (w.said say).st := hS
        rw [step, step]
        simp only [if_pos hS, if_pos hv]
      · refine absurd ?_ h
        rw [step]
        simp only [if_neg hS, hlook]
  | some r =>
      obtain ⟨kind, look⟩ := r
      refine (step_look rfl hlook (l := if abase t (lrTop [] w.st) = 0xffff then say w.pos else
        if kindAt k w.pos = 0xffff then resolve t w.st (say w.pos) else say w.pos) ?_).symm
      rw [lookAt] at hlook ⊢
      split at hlook
      next hbase =>
        cases hlook
        simp only [if_pos hbase]
        rfl
      next hbase =>
        simp only [if_neg hbase]
        split at hlook
        next hkind =>
          split at hlook
          next => cases hlook
          next hne =>
            cases hlook
            have hkind' : kindAt k (w.said say).pos = 0xffff := hkind
            rw [if_pos hkind', if_pos hkind]
            rcases ha with ha | ⟨-, ha | ha⟩
            · exact absurd ha hne
            · have hsaid : (w.said say).look ≠ 0xffff := by rwa [ha] at hne
              rw [if_neg hsaid, ha]
              rfl
            · have hsaid : say w.pos ≠ 0xffff := fun he => hne (by rw [ha, he]; rfl)
              rw [ha, resolve_resolve hword]
              rw [if_neg (show (w.said say).look ≠ 0xffff from hsaid)]
              rfl
        next hkind =>
          cases hlook
          have hkind' : kindAt k (w.said say).pos ≠ 0xffff := hkind
          rw [if_neg hkind', if_neg hkind]
          rfl

theorem lookAt_none {s : ℕ} (h : lookAt t k w s = none) : w.look = 0xffff ∧ kindAt k w.pos = 0xffff := by
  rw [lookAt] at h
  split_ifs at h with hbase hkind hlook
  exact ⟨hlook, hkind⟩

theorem step_say (h : step t k w = .error .say) : w.look = 0xffff ∧ kindAt k w.pos = 0xffff := by
  cases hlook : lookAt t k w (lrTop [] w.st) with
  | none => exact lookAt_none hlook
  | some r =>
      simp only [step, hlook] at h
      split_ifs at h <;> cases h

/-- An apt look stays apt. -/
theorem Apt.turn (hword : Says say) (ha : Apt t k say w) (h : step t k w = .ok w')
    (hkeeps : w'.pos = w.pos → kindAt k w.pos = 0xffff → 0xffff < say w.pos → Keeps t (say w.pos) w.st w'.st) :
    Apt t k say w' := by
  obtain ⟨hS, kind, look, hlook, ⟨hw', -⟩ | ⟨hw', hred, hr, hL⟩⟩ := step_cases h
  · exact Or.inl (by rw [hw'])
  · by_cases hquiet : look = 0xffff
    · exact Or.inl (by rw [hw', hquiet])
    · -- the token is one to say, and the look what asking here would give
      have hpos : w'.pos = w.pos := by rw [hw']
      have hst : w'.st = reduced t (action t (lrTop [] w.st) kind) w.st := by rw [hw']
      have hheld : kindAt k w.pos = 0xffff ∧ (look = say w.pos ∨ look = resolve t w.st (say w.pos)) ∧
          (abase t (lrTop [] w.st) = 0xffff ∨ kind = resolve t w.st (say w.pos)) := by
        rw [lookAt] at hlook
        split_ifs at hlook with hbase hkind hnone
        · cases hlook
          rcases ha with ha | ⟨hkind, ha⟩
          · exact absurd ha hquiet
          · exact ⟨hkind, ha, Or.inl hbase⟩
        · cases hlook
          have hsaid : resolve t w.st w.look = resolve t w.st (say w.pos) := by
            rcases ha with ha | ⟨-, ha | ha⟩
            · exact absurd ha hnone
            · rw [ha]
            · rw [ha, resolve_resolve hword]
          exact ⟨hkind, Or.inr hsaid, Or.inr hsaid⟩
        · cases hlook
          rcases ha with ha | ⟨hkind', -⟩
          · exact absurd ha hquiet
          · exact absurd hkind' hkind
      obtain ⟨hkind, hlook', hread⟩ := hheld
      refine Or.inr ⟨by rw [hpos, hkind], ?_⟩
      rw [hpos]
      have hwl : w'.look = look := by rw [hw']
      rw [hwl]
      refine hlook'.imp_right fun hlook' => hlook'.trans ?_
      rw [resolve, resolve]
      split
      next hpair =>
        -- a first kind seen to shift is the one the reduction was made on
        have htakes : lrTakes t w'.st (say w.pos % 65536) = lrTakes t w.st (say w.pos % 65536) := by
          rcases hkeeps hpos hkind hpair with hshift | hsame
          · have hyes : lrTakes t w.st (say w.pos % 65536) = true := by rw [lrTakes, hshift]; rfl
            have hact : action t (lrTop [] w.st) (say w.pos % 65536) = action t (lrTop [] w.st) kind := by
              rcases hread with hbase | hread
              · simp only [action, hbase, ne_eq, not_true_eq_false, false_and, if_false]
              · rw [hread, resolve, if_pos hpair, if_pos hyes]
            rw [← hact] at hst hred hr hL
            rw [hyes, lrTakes, hst, lrFollow_reduced hS hred hr hL hshift]
            rfl
          · exact hsame
        rw [htakes]
      next => rfl

/-- A walk stands where the run without a budget does, but for the look. -/
def Shadows (t k : Bytes) (say : ℕ → ℕ) (v : Walk) : Prop :=
  Apt t k say v ∧ ∃ w, Passes t k say w ∧ Apt t k say w ∧ w.calm = v.calm

theorem shadows_start : Shadows t k say start := ⟨Or.inl rfl, start, .start, Or.inl rfl, rfl⟩

theorem Shadows.calm (h : Shadows t k say v) : Shadows t k say v.calm := ⟨Or.inl rfl, h.2⟩

theorem Shadows.said (h : Shadows t k say v) (hkind : kindAt k v.pos = 0xffff) : Shadows t k say (v.said say) :=
  ⟨Or.inr ⟨hkind, Or.inl rfl⟩, h.2⟩

theorem calm_eq (h : w.calm = v.calm) : w.pos = v.pos ∧ w.st = v.st ∧ w.log = v.log ∧ w.read = v.read := by
  simp only [Walk.calm, Walk.mk.injEq] at h
  exact ⟨h.1, h.2.1, h.2.2.2.1, h.2.2.2.2⟩

theorem map_calm_ok {r : Except Status Walk} (h : r.map Walk.calm = .ok v) : ∃ w, r = .ok w ∧ w.calm = v := by
  cases r with
  | error z => cases h
  | ok w =>
      cases h
      exact ⟨w, rfl, rfl⟩

/-- The run without a budget takes the same turn, asking first where it must. -/
theorem Shadows.turn (hword : Says say) (hsteady : Steady t k say) (h : Shadows t k say v)
    (hv : step t k v = .ok v') : Shadows t k say v' ∧ next t k say v.calm = .ok v'.calm := by
  obtain ⟨hapt, w, hpass, hw, hcalm⟩ := h
  have hnext : next t k say v.calm = .ok v'.calm := by
    rw [next_calm hword hapt (by rw [hv]; nofun), hv]
    rfl
  -- a state of the run without a budget that takes the turn
  have hturn : ∃ u u', Passes t k say u ∧ Apt t k say u ∧ u.calm = v.calm ∧ step t k u = .ok u' ∧
      u'.calm = v'.calm := by
    by_cases hsay : step t k w = .error .say
    · have hkind := (step_say hsay).2
      have haptu : Apt t k say (w.said say) := Or.inr ⟨hkind, Or.inl rfl⟩
      have hstep : (step t k (w.said say)).map Walk.calm = .ok v'.calm := by
        rw [← hnext, ← hcalm, next, said_calm]
      obtain ⟨u', hu', hc'⟩ := map_calm_ok hstep
      exact ⟨w.said say, u', hpass.say hsay, haptu, hcalm, hu', hc'⟩
    · have hstep := next_calm hword hw hsay
      rw [hcalm, hnext] at hstep
      obtain ⟨u', hu', hc'⟩ := map_calm_ok hstep.symm
      exact ⟨w, u', hpass, hw, hcalm, hu', hc'⟩
  obtain ⟨u, u', hupass, hu, huc, hstep, hc'⟩ := hturn
  obtain ⟨hpos, hst, -⟩ := calm_eq huc
  obtain ⟨hpos', hst', -⟩ := calm_eq hc'
  have hkeeps := hsteady u u' hupass hstep
  refine ⟨⟨hapt.turn hword hv ?_, u', hupass.turn hstep, hu.turn hword hstep hkeeps, hc'⟩, hnext⟩
  rw [← hpos, ← hst, ← hpos', ← hst']
  exact hkeeps

end LoveRuntime.Lr
