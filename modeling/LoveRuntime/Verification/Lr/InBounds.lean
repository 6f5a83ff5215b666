import LoveRuntime.Model.Lr
import LoveRuntime.Verification.Lr.Compose

/-! # The walk stays in its table -/

namespace LoveRuntime.Lr

open Function

/-! ## Arrays -/

theorem rd16_of_lt {p : Bytes} {o n x : ℕ} (h : x < n) (hn : o + 2 * n ≤ p.length) :
    rd16 p o n x = some (lr16 p o x) := if_pos ⟨h, by omega⟩

theorem rd16_of_le {p : Bytes} {o n x : ℕ} (h : n ≤ x) : rd16 p o n x = none :=
  if_neg fun hx => absurd hx.1 (Nat.not_lt.mpr h)

/-- A table whose arrays are all in the blob. -/
def Laid (h : Bytes) : Prop := oGchk h + 2 * tabGN h = h.length

section Arrays

variable {h : Bytes} (hlaid : Laid h)

include hlaid

theorem rdAction_eq {s : ℕ} (hs : s < tabS h) (kind : ℕ) :
    rdAction h s kind = some (action h s kind) := by
  have hd : rdDflt h s = some (dflt h s) := by
    apply rd16_of_lt hs
    simp only [Laid, oGchk, oGtab, oAchk, oAtab, oGbase, oGdef, oAbase] at hlaid
    omega
  have ha : rdAbase h s = some (abase h s) := by
    apply rd16_of_lt hs
    simp only [Laid, oGchk, oGtab, oAchk, oAtab, oGbase, oGdef] at hlaid
    omega
  by_cases hi : abase h s ≠ 0xffff ∧ kind < tabT h ∧ abase h s + kind < tabAN h
  case pos =>
      have hc : rdAchk h (abase h s + kind) = some (achk h (abase h s + kind)) := by
        apply rd16_of_lt hi.2.2
        simp only [Laid, oGchk, oGtab] at hlaid
        omega
      have ht : rdAtab h (abase h s + kind) = some (atab h (abase h s + kind)) := by
        apply rd16_of_lt hi.2.2
        simp only [Laid, oGchk, oGtab, oAchk] at hlaid
        omega
      by_cases he : achk h (abase h s + kind) = s
      · simp [rdAction, action, hd, ha, hi, hc, ht, he]
      · simp [rdAction, action, hd, ha, hi, hc, he]
  case neg =>
      have hi' : ¬ (abase h s ≠ 0xffff ∧ kind < tabT h ∧ abase h s + kind < tabAN h ∧
          achk h (abase h s + kind) = s) := fun hh => hi ⟨hh.1, hh.2.1, hh.2.2.1⟩
      simp only [rdAction, hd, ha, Option.bind_eq_bind, Option.bind_some, hi, if_false, action,
        hi']

theorem rdAbase_eq {s : ℕ} (hs : s < tabS h) : rdAbase h s = some (abase h s) := by
  apply rd16_of_lt hs
  simp only [Laid, oGchk, oGtab, oAchk, oAtab, oGbase, oGdef] at hlaid
  omega

theorem rdRlen_eq {r : ℕ} (hr : r < tabR h) : rdRlen h r = some (rlen h r) := by
  apply rd16_of_lt hr
  simp only [Laid, oGchk, oGtab, oAchk, oAtab, oGbase, oGdef, oAbase, oDflt] at hlaid
  omega

theorem rdRlhs_eq {r : ℕ} (hr : r < tabR h) : rdRlhs h r = some (rlhs h r) := by
  apply rd16_of_lt hr
  simp only [Laid, oGchk, oGtab, oAchk, oAtab, oGbase, oGdef, oAbase, oDflt, oRlen] at hlaid
  omega

theorem rdLen_eq (r x : ℕ) : rdLen h r x = some (if r < tabR h then rlen h r else x) := by
  unfold rdLen
  split
  case isTrue hr => exact rdRlen_eq hlaid hr
  case isFalse => rfl

theorem rdSlot_eq (A q : ℕ) :
    rdSlot h A q = some (if A < tabN h then gbase h A + q else tabGN h) := by
  by_cases hA : A < tabN h
  case pos =>
      have hb : rdGbase h A = some (gbase h A) := by
        apply rd16_of_lt hA
        simp only [Laid, oGchk, oGtab, oAchk, oAtab] at hlaid
        omega
      simp [rdSlot, hA, hb]
  case neg => simp [rdSlot, hA]

omit hlaid in
theorem rdRlhs_none {r : ℕ} (hr : tabR h ≤ r) : rdRlhs h r = none := rd16_of_le hr

theorem rdGoto_eq {A : ℕ} (hA : A < tabN h) (q : ℕ) :
    rdGoto h A (if A < tabN h then gbase h A + q else tabGN h) = some (goto h A q) := by
  have hd : rdGdef h A = some (gdef h A) := by
    apply rd16_of_lt hA
    simp only [Laid, oGchk, oGtab, oAchk, oAtab, oGbase] at hlaid
    omega
  simp only [rdGoto, goto, hA, if_true]
  by_cases hj : gbase h A + q < tabGN h
  case pos =>
      have hc : rdGchk h (gbase h A + q) = some (gchk h (gbase h A + q)) := by
        apply rd16_of_lt hj
        simp only [Laid] at hlaid
        omega
      have ht : rdGtab h (gbase h A + q) = some (gtab h (gbase h A + q)) := by
        apply rd16_of_lt hj
        simp only [Laid, oGchk] at hlaid
        omega
      by_cases he : gchk h (gbase h A + q) = A
      · simp [hj, hc, ht, he]
      · simp [hj, hc, hd, he]
  case neg => simp [hj, hd]

omit hlaid in
/-- A left side that is no nonterminal is read past the defaults. -/
theorem rdGoto_none {A : ℕ} (hA : tabN h ≤ A) (q : ℕ) :
    rdGoto h A (if A < tabN h then gbase h A + q else tabGN h) = none := by
  have hd : rdGdef h A = none := rd16_of_le hA
  simp [rdGoto, Nat.not_lt.mpr hA, hd]

end Arrays

/-! ## The stack -/

@[simp]
theorem cells_length (st : ℕ → ℕ) (d : ℕ) : (cells st d).length = d := by simp [cells]

theorem cells_succ (st : ℕ → ℕ) (d : ℕ) : cells st (d + 1) = st d :: cells st d := by
  simp [cells, List.range_succ]

theorem cells_update (st : ℕ → ℕ) {d x : ℕ} (v : ℕ) (h : d ≤ x) :
    cells (update st x v) d = cells st d := by
  have : ∀ y ∈ List.range d, update st x v y = st y := by
    intro y hy
    have hlt := List.mem_range.mp hy
    exact update_of_ne (Nat.ne_of_lt (Nat.lt_of_lt_of_le hlt h)) v st
  simp only [cells, List.map_congr_left this]

theorem cells_drop (st : ℕ → ℕ) (d L : ℕ) : (cells st d).drop L = cells st (d - L) := by
  induction L generalizing d with
  | zero => rfl
  | succ L ih =>
      cases d with
      | zero => simp [cells]
      | succ d => rw [cells_succ, List.drop_succ_cons, ih, Nat.add_sub_add_right]

theorem cells_push (st : ℕ → ℕ) (d v : ℕ) : cells (update st d v) (d + 1) = v :: cells st d := by
  rw [cells_succ, cells_update st v (Nat.le_refl d), update_self]

theorem rdTop_eq {st : ℕ → ℕ} {room d : ℕ} (h0 : 0 < d) (h : d ≤ room) :
    rdTop st room d = some (lrTop [] (cells st d)) := by
  obtain ⟨e, rfl⟩ : ∃ e, d = e + 1 := ⟨d - 1, by omega⟩
  simp [rdTop, h, lrTop, cells_succ]

theorem rdOver_eq (ov st : ℕ → ℕ) {room no d : ℕ} (hno : no ≤ 64) (h0 : 0 < d) (h : d ≤ room) :
    rdOver ov no st room d = some (lrTop (cells ov no) (cells st d)) := by
  unfold rdOver
  by_cases hz : no = 0
  · subst hz
    exact rdTop_eq h0 h
  · rw [if_pos hz, rdTop_eq (Nat.pos_of_ne_zero hz) hno]
    obtain ⟨e, rfl⟩ : ∃ e, no = e + 1 := ⟨no - 1, by omega⟩
    simp [lrTop, cells_succ]

/-! ## The look -/

section Look

variable {h : Bytes} (hlaid : Laid h)

include hlaid

/-- `lr_takes` answers as the lists say where the reductions it makes are followed, and leaves
the table where they are not. -/
theorem rdFollow_spec (kind : ℕ) (st ov : ℕ → ℕ) {room no d : ℕ} (n : ℕ) (hno : no ≤ 64)
    (h0 : 0 < d) (hd : d ≤ room) :
    (Followed h kind n (cells ov no) (cells st d) →
      rdFollow h kind room st n ov no d =
        some ((lrFollow h kind n (cells ov no) (cells st d)).getD true)) ∧
    (¬ Followed h kind n (cells ov no) (cells st d) → rdFollow h kind room st n ov no d = none) := by
  induction n generalizing ov no d with
  | zero => exact ⟨fun _ => rfl, fun hf => (hf trivial).elim⟩
  | succ n ih =>
      simp only [Followed, rdFollow, lrFollow, rdOver_eq ov st hno h0 hd, Option.bind_eq_bind,
        Option.bind_some, cells_length]
      generalize hs : lrTop (cells ov no) (cells st d) = s
      by_cases hS : tabS h ≤ s
      · simp [hS, Nat.not_lt.mpr hS]
      have hS' : s < tabS h := Nat.lt_of_not_le hS
      simp only [hS, if_false, hS', forall_const, rdAction_eq hlaid hS', Option.bind_some]
      generalize action h s kind = a
      by_cases ha : a = 0
      · simp [ha]
      by_cases ha' : a < 0x8000
      · simp [ha, ha', Nat.not_le.mpr ha']
      simp only [ha, ha', if_false, Nat.le_of_not_lt ha', forall_const]
      generalize a - 0x8000 = r
      simp only [rdLen_eq hlaid, Option.bind_some]
      generalize (if r < tabR h then rlen h r else 0) = L
      generalize hk : (if L < no then L else no) = k
      have hkno : no - k ≤ 64 := by omega
      by_cases hpop : d ≤ L - k
      · simp [hpop, Nat.not_lt.mpr hpop]
      simp only [hpop, if_false, Nat.lt_of_not_le hpop, forall_const, cells_drop, cells_length]
      by_cases hr : tabR h ≤ r
      · simp only [rdRlhs_none hr, Option.bind_none, Nat.not_lt.mpr hr, false_and, not_false_eq_true,
          false_implies, implies_true, and_self]
      have hr' : r < tabR h := Nat.lt_of_not_le hr
      have hpos : 0 < d - (L - k) := Nat.sub_pos_of_lt (Nat.lt_of_not_le hpop)
      have hroom : d - (L - k) ≤ room := Nat.le_trans (Nat.sub_le _ _) hd
      have hq := rdOver_eq ov st hkno hpos hroom
      rw [rdRlhs_eq hlaid hr', Option.bind_some, hq, Option.bind_some, rdSlot_eq hlaid,
        Option.bind_some]
      simp only [hr', true_and]
      generalize lrTop (cells ov (no - k)) (cells st (d - (L - k))) = q
      by_cases hfull : no - k = 64
      · simp [hfull]
      simp only [hfull, if_false, ne_eq, not_false_eq_true, forall_const]
      by_cases hA : tabN h ≤ rlhs h r
      · rw [rdGoto_none hA]
        simp [Nat.not_lt.mpr hA]
      have hA' : rlhs h r < tabN h := Nat.lt_of_not_le hA
      have hpush : push ov 64 (no - k) (goto h (rlhs h r) q) =
          some (update ov (no - k) (goto h (rlhs h r) q)) := if_pos (by omega)
      rw [rdGoto_eq hlaid hA' q, Option.bind_some, hpush, Option.bind_some]
      simp only [hA', true_and]
      have hroom' : no - k + 1 ≤ 64 := by omega
      have := ih (update ov (no - k) (goto h (rlhs h r) q)) hroom' hpos hroom
      rw [cells_push] at this
      exact this

omit hlaid in
theorem rdKind_eq (K : Bytes) (pos : ℕ) : rdKind K pos = some (kindAt K pos) := by
  unfold rdKind kindAt
  split
  case isTrue hpos => exact rd16_of_lt hpos (by omega)
  case isFalse => rfl

/-- The kind a turn reads is as the lists say, where the look it may take is followed. -/
theorem rdLook_spec {K : Bytes} {room : ℕ} {m : Frame} (h0 : 0 < m.d) (hd : m.d ≤ room) {s : ℕ} :
    ((abase h s ≠ 0xffff → kindAt K m.pos = 0xffff → 0xffff < m.look →
        Followed h (m.look % 65536) 256 [] (cells m.st m.d)) →
      rdLook h K room m (abase h s) = some (lookAt h K m.walk s)) ∧
    (¬ (abase h s ≠ 0xffff → kindAt K m.pos = 0xffff → 0xffff < m.look →
        Followed h (m.look % 65536) 256 [] (cells m.st m.d)) →
      rdLook h K room m (abase h s) = none) := by
  have htakes := rdFollow_spec hlaid (m.look % 65536) m.st (fun _ => 0) 256
    (Nat.zero_le 64) h0 hd
  have hnil : cells (fun _ => 0) 0 = [] := rfl
  rw [hnil] at htakes
  by_cases hbase : abase h s = 0xffff
  · simp [rdLook, lookAt, hbase, Frame.walk]
  by_cases hkind : kindAt K m.pos = 0xffff
  · by_cases hlook : m.look = 0xffff
    · simp [rdLook, lookAt, hbase, hkind, hlook, Frame.walk, rdKind_eq]
    · by_cases hpair : 0xffff < m.look
      · by_cases hf : Followed h (m.look % 65536) 256 [] (cells m.st m.d)
        · simp [rdLook, lookAt, hbase, hkind, hlook, hpair, hf, Frame.walk, rdKind_eq, rdTakes,
            htakes.1 hf, resolve, lrTakes]
          rfl
        · simp [rdLook, hbase, hkind, hlook, hpair, hf, rdKind_eq, rdTakes, htakes.2 hf]
      · simp [rdLook, lookAt, hbase, hkind, hlook, hpair, Frame.walk, rdKind_eq, resolve]
  · simp [rdLook, lookAt, hbase, hkind, Frame.walk, rdKind_eq]

end Look

/-! ## A turn -/

section Turn

variable {h K : Bytes} (hlaid : Laid h)

include hlaid

/-- A turn from a sound state does what the lists say and stays in the arrays; from another it
leaves them. -/
theorem turn_spec {m : Frame} (room : ℕ) (h0 : 0 < m.d) (hd : m.d < room) :
    (Sound h K m.walk → ∃ r, turn h K room m = some r ∧ r.map Frame.walk = step h K m.walk ∧
      ∀ m', r = .ok m' → 0 < m'.d ∧ m'.d ≤ m.d + 1) ∧
    (¬ Sound h K m.walk → turn h K room m = none) := by
  have htop : rdTop m.st room m.d = some (lrTop [] m.walk.st) := rdTop_eq h0 (Nat.le_of_lt hd)
  have hlen : m.walk.st.length = m.d := cells_length m.st m.d
  generalize hs : lrTop [] m.walk.st = s at htop
  unfold turn step
  rw [htop, Option.bind_eq_bind, Option.bind_some, hs]
  by_cases hS : tabS h ≤ s
  · have hsound : Sound h K m.walk :=
      ⟨fun hlt => absurd (hs ▸ hlt) (Nat.not_lt.mpr hS),
        fun hlt => absurd (hs ▸ hlt) (Nat.not_lt.mpr hS)⟩
    refine ⟨fun _ => ⟨.error .error, ?_, ?_, fun _ hr => nomatch hr⟩, fun hn => (hn hsound).elim⟩
    · rw [if_pos hS]
    · rw [if_pos hS]
      rfl
  have hS' : s < tabS h := Nat.lt_of_not_le hS
  rw [if_neg hS, rdAbase_eq hlaid hS', Option.bind_eq_bind, Option.bind_some, if_neg hS]
  obtain ⟨hlook, hunlook⟩ := rdLook_spec hlaid (K := K) h0 (Nat.le_of_lt hd) (s := s)
  by_cases hl : abase h s ≠ 0xffff → kindAt K m.pos = 0xffff → 0xffff < m.look →
      Followed h (m.look % 65536) 256 [] (cells m.st m.d)
  case neg =>
      rw [hunlook hl]
      refine ⟨fun hsound => (hl ?_).elim, fun _ => rfl⟩
      have := hsound.look
      rw [hs] at this
      exact this hS'
  rw [hlook hl, Option.bind_eq_bind, Option.bind_some]
  -- the look is followed: what is left of soundness is the turn's own reduction
  have hiff : Sound h K m.walk ↔ ∀ kind look r, lookAt h K m.walk s = some (kind, look) →
      action h s kind = 0x8000 + r → r < tabR h → rlen h r < m.d → rlhs h r < tabN h := by
    constructor
    · intro hsound
      have := hsound.reduce
      rw [hs, hlen] at this
      exact this hS'
    · intro hred
      refine ⟨?_, ?_⟩
      · rw [hs]
        exact fun _ => hl
      · rw [hs, hlen]
        exact fun _ => hred
  cases hk : lookAt h K m.walk s with
  | none =>
      refine ⟨fun _ => ⟨.error .say, rfl, rfl, fun _ hr => nomatch hr⟩, fun hn => (hn ?_).elim⟩
      rw [hiff, hk]
      exact fun _ _ _ hno => nomatch hno
  | some kl =>
      obtain ⟨kind, look⟩ := kl
      have hiff' : Sound h K m.walk ↔ ∀ r, action h s kind = 0x8000 + r → r < tabR h →
          rlen h r < m.d → rlhs h r < tabN h := by
        rw [hiff, hk]
        constructor
        · exact fun hred r => hred kind look r rfl
        · rintro hred kind' look' r heq
          cases heq
          exact hred r
      rw [hiff']
      simp only
      rw [rdAction_eq hlaid hS', Option.bind_some]
      generalize action h s kind = a
      by_cases ha : a = 0
      · rw [if_pos ha, if_pos ha]
        refine ⟨fun _ => ⟨.error .error, rfl, rfl, fun _ hr => nomatch hr⟩, fun hn => (hn ?_).elim⟩
        intro r hr
        omega
      rw [if_neg ha, if_neg ha]
      by_cases ha' : a < 0x8000
      · rw [if_pos ha', if_pos ha']
        have hno : ∀ r, a = 0x8000 + r → r < tabR h → rlen h r < m.d → rlhs h r < tabN h := by
          intro r hr
          omega
        by_cases hz : kind = 0
        · rw [if_pos hz, if_pos hz]
          exact ⟨fun _ => ⟨.error .accept, rfl, rfl, fun _ hr => nomatch hr⟩,
            fun hn => (hn hno).elim⟩
        · rw [if_neg hz, if_neg hz]
          have hpush : push m.st room m.d a = some (update m.st m.d a) := if_pos hd
          rw [hpush, Option.bind_some]
          refine ⟨fun _ => ⟨_, rfl, ?_, ?_⟩, fun hn => (hn hno).elim⟩
          · simp only [Except.map, Frame.walk, cells_push]
          · rintro m' ⟨⟩
            exact ⟨Nat.succ_pos _, Nat.le_refl _⟩
      rw [if_neg ha', if_neg ha']
      obtain ⟨r, rfl⟩ : ∃ r, a = 0x8000 + r := ⟨a - 0x8000, by omega⟩
      simp only [Nat.add_sub_cancel_left, Nat.add_left_cancel_iff, forall_eq']
      rw [rdLen_eq hlaid, Option.bind_some, hlen]
      generalize hL : (if r < tabR h then rlen h r else m.d) = L
      by_cases hpop : m.d ≤ L
      · rw [if_pos hpop, if_pos hpop]
        refine ⟨fun _ => ⟨.error .error, rfl, rfl, fun _ hr => nomatch hr⟩, fun hn => (hn ?_).elim⟩
        intro hr hlt
        rw [if_pos hr] at hL
        omega
      rw [if_neg hpop, if_neg hpop]
      have hr : r < tabR h := by
        by_contra hr
        rw [if_neg hr] at hL
        omega
      rw [if_pos hr] at hL
      have hpos : 0 < m.d - L := by omega
      have hroom : m.d - L ≤ room := by omega
      have hdrop : m.walk.st.drop L = cells m.st (m.d - L) := cells_drop m.st m.d L
      rw [rdRlhs_eq hlaid hr, Option.bind_some, rdTop_eq hpos hroom,
        Option.bind_some, rdSlot_eq hlaid, Option.bind_some, hdrop]
      generalize lrTop [] (cells m.st (m.d - L)) = q
      by_cases hA : tabN h ≤ rlhs h r
      · rw [rdGoto_none hA]
        refine ⟨fun hsound => ?_, fun _ => rfl⟩
        exact absurd (hsound hr (by omega)) (Nat.not_lt.mpr hA)
      have hA' : rlhs h r < tabN h := Nat.lt_of_not_le hA
      have hpush : push m.st room (m.d - L) (goto h (rlhs h r) q) =
          some (update m.st (m.d - L) (goto h (rlhs h r) q)) := if_pos (by omega)
      rw [rdGoto_eq hlaid hA' q, Option.bind_some, hpush,
        Option.bind_some]
      refine ⟨fun _ => ⟨_, rfl, ?_, ?_⟩, fun hn => (hn fun _ _ => hA').elim⟩
      · simp only [Except.map, Frame.walk, cells_push]
      · rintro m' ⟨⟩
        exact ⟨Nat.succ_pos _, by simp only; omega⟩

/-- The loop stays in the arrays exactly where every state it turns from is sound, and then
does what the lists say. -/
theorem turns_spec (room : ℕ) {n : ℕ} {m : Frame} (h0 : 0 < m.d) (hd : m.d + n ≤ room) :
    ((∀ i < n, ∀ w, Reaches h K i m.walk w → Sound h K w) →
      ∃ z m', turns h K room n m = some (z, m') ∧ walk h K n m.walk = (z, m'.walk)) ∧
    ((¬ ∀ i < n, ∀ w, Reaches h K i m.walk w → Sound h K w) → turns h K room n m = none) := by
  induction n generalizing m with
  | zero =>
      exact ⟨fun _ => ⟨.more, m, rfl, rfl⟩, fun hn => (hn fun i hi => absurd hi (Nat.not_lt_zero i)).elim⟩
  | succ n ih =>
      obtain ⟨hsound, hunsound⟩ := turn_spec hlaid (K := K) room h0 (by omega)
      by_cases hs : Sound h K m.walk
      case neg =>
          refine ⟨fun hall => (hs (hall 0 (Nat.succ_pos n) m.walk (.here _))).elim, fun _ => ?_⟩
          rw [turns, hunsound hs]
          rfl
      obtain ⟨r, hr, hstep, hdeep⟩ := hsound hs
      rw [turns, hr, Option.bind_eq_bind, Option.bind_some, walk, ← hstep]
      cases r with
      | error z =>
          refine ⟨fun _ => ⟨z, m, rfl, rfl⟩, fun hn => (hn ?_).elim⟩
          intro i _ w hw
          cases hw with
          | here => exact hs
          | turn hw _ =>
              rw [← hstep] at hw
              cases hw
      | ok m' =>
          have hturn : step h K m.walk = .ok m'.walk := hstep.symm
          obtain ⟨hpos, hle⟩ := hdeep m' rfl
          have hiff : (∀ i < n + 1, ∀ w, Reaches h K i m.walk w → Sound h K w) ↔
              ∀ i < n, ∀ w, Reaches h K i m'.walk w → Sound h K w := by
            constructor
            · exact fun hall i hi w hw => hall (i + 1) (Nat.succ_lt_succ hi) w (.turn hturn hw)
            · intro hall i hi w hw
              cases hw with
              | here => exact hs
              | turn hw hrest =>
                  rw [hturn] at hw
                  cases hw
                  exact hall _ (Nat.lt_of_succ_lt_succ hi) w hrest
          rw [hiff]
          exact ih hpos (by omega)

end Turn

/-! ## The run -/

theorem laid_of_size {t : Bytes}
    (h : t.length = 2 * (6 + 2 * tabR t + 2 * tabS t + 2 * tabN t + 2 * tabAN t + 2 * tabGN t)) :
    Laid t := by
  simp only [Laid, oGchk, oGtab, oAchk, oAtab, oGbase, oGdef, oAbase, oDflt, oRlen]
  omega

/-- The walk that a cursor starts. -/
def entered (c : Bytes) (look : ℕ) : Walk := ⟨lr32 c 0, states c, look, [], []⟩

theorem lrRun_spec {t k c : Bytes} (h : Admits t k c) (steps look : ℕ) :
    ((∀ n < steps, ∀ w, Reaches t k n (entered c look) w → Sound t k w) →
      lrRun steps t k c look = some (hostLrRun steps t k c look)) ∧
    ((¬ ∀ n < steps, ∀ w, Reaches t k n (entered c look) w → Sound t k w) →
      lrRun steps t k c look = none) := by
  have hwalk : (enter c look).walk = entered c look := rfl
  obtain ⟨hall, hnone⟩ := turns_spec (laid_of_size h.size) (K := k) (m := enter c look)
    (lr32 c 4 + steps) (n := steps) h.deep (Nat.le_refl _)
  rw [hwalk] at hall hnone
  constructor
  · intro hs
    obtain ⟨z, m, hturns, hw⟩ := hall hs
    have hshape : ¬ (t.length < 12 ∨ k.length % 2 = 1 ∨ c.length < 10) := by
      have := h.head
      have := h.kinds
      have := h.cursor
      omega
    have hsize : ¬ (t.length ≠
        2 * (6 + 2 * tabR t + 2 * tabS t + 2 * tabN t + 2 * tabAN t + 2 * tabGN t) ∨
        tabT t = 0 ∨ lr32 c 4 < 1 ∨ 0xffffff < lr32 c 4 ∨ c.length < 8 + 2 * lr32 c 4) := by
      rintro (hne | hT | hd | hd | hc)
      · exact hne h.size
      · exact h.terminal hT
      · exact absurd h.deep (Nat.not_le.mpr hd)
      · exact absurd h.shallow (Nat.not_le.mpr hd)
      · exact absurd h.held (Nat.not_le.mpr hc)
    rw [lrRun, if_pos h, hturns, hostLrRun, if_neg hshape, if_neg hsize]
    change walk t k steps ⟨lr32 c 0, states c, look, [], []⟩ = _ at hw
    rw [hw]
    rfl
  · intro hs
    rw [lrRun, if_pos h, hnone hs]
    rfl

/-! ## Tables that name only what they have -/

section WellFormed

variable {h : Bytes} (hw : WellFormed h)

include hw

theorem action_rule {s kind r : ℕ} (hs : s < tabS h) (ha : action h s kind = 0x8000 + r) :
    r < tabR h := by
  unfold action at ha
  simp only at ha
  split at ha
  case isTrue hi =>
      have := hw.rules _ hi.2.2.1 (by omega)
      omega
  case isFalse =>
      have := hw.defaults s hs
      split at ha <;> omega

theorem followed_of_wellFormed (kind n : ℕ) (ov st : List ℕ) : Followed h kind n ov st := by
  induction n generalizing ov st with
  | zero => trivial
  | succ n ih =>
      intro hs ha _
      have hr := action_rule hw hs (Nat.add_sub_of_le ha).symm
      exact ⟨hr, fun _ => ⟨hw.names _ hr, ih _ _⟩⟩

/-- With a table whose entries name its rules, and whose rules name its nonterminals, every
state is sound. -/
theorem sound_of_wellFormed (K : Bytes) (w : Walk) : Sound h K w where
  look _ _ _ _ := followed_of_wellFormed hw _ _ _ _
  reduce _ _ _ r _ _ hr _ := hw.names r hr

end WellFormed

/-- Every access of a run is in its array exactly where, in each state a turn is taken from, the
walk reduces by a rule whose left side is a nonterminal of the table, and so do the looks. -/
theorem run_inBounds_iff (t k c : Bytes) (look : ℕ) (h : Admits t k c) :
    (lrRun lrSteps t k c look).isSome ↔
      ∀ n < lrSteps, ∀ w, Reaches t k n (entered c look) w → Sound t k w := by
  obtain ⟨hall, hnone⟩ := lrRun_spec h lrSteps look
  constructor
  · intro hsome
    by_contra hs
    rw [hnone hs] at hsome
    cases hsome
  · intro hs
    rw [hall hs]
    rfl

/-- A table of one state, whose default is the rule 0, of the left side `A` and no length. -/
def oneRule (A : ℕ) : Bytes :=
  [1, 1, 1, 1, 0, 0].flatMap lrput16 ++ [A, 0, 1, 0xffff, 0, 0].flatMap lrput16

theorem run_inBounds_oneRule : (lrRun lrSteps (oneRule 0) [] c0 0xffff).isSome := by
  refine (run_inBounds_iff (oneRule 0) [] c0 0xffff (by decide)).mpr fun n _ w _ => ?_
  exact sound_of_wellFormed ⟨by decide, by decide, by decide, by decide, by decide, by decide⟩ [] w

/-- A rule whose left side is no nonterminal has the walk read past the gotos' defaults. -/
theorem run_outOfBounds :
    ¬ ∀ (t k c : Bytes) (look : ℕ), Admits t k c → (lrRun lrSteps t k c look).isSome := by
  intro h
  have := h (oneRule 7) [] c0 0xffff (by decide)
  exact absurd this (by decide)

end LoveRuntime.Lr
