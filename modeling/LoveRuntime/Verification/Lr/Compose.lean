import Mathlib.Algebra.Ring.Nat
import LoveRuntime.Model.Lr
import LoveRuntime.Verification.Lr.Slices
import Mathlib.Data.List.Range

/-! What a walk's answer says is read back by the next slice and by the driver. -/

namespace LoveRuntime.Lr

/-- The bytes `l` stand at `o`. -/
def Holds (p : Bytes) (o : ℕ) (l : Bytes) : Prop := ∃ pre post, p = pre ++ l ++ post ∧ pre.length = o

variable {p l m : Bytes} {o v : ℕ}

theorem holds_self (p : Bytes) : Holds p 0 p := ⟨[], [], by simp, rfl⟩

theorem Holds.left (h : Holds p o (l ++ m)) : Holds p o l := by
  obtain ⟨pre, post, rfl, hlen⟩ := h
  exact ⟨pre, m ++ post, by simp, hlen⟩

theorem Holds.right (h : Holds p o (l ++ m)) : Holds p (o + l.length) m := by
  obtain ⟨pre, post, rfl, hlen⟩ := h
  exact ⟨pre ++ l, post, by simp, by simp [hlen]⟩

theorem Holds.getByte (h : Holds p o l) {i : ℕ} (hi : i < l.length) : byte p (o + i) = (l[i]).toNat := by
  obtain ⟨pre, post, rfl, rfl⟩ := h
  rw [byte, List.getD_eq_getElem?_getD, List.append_assoc, List.getElem?_append_right (by omega),
    Nat.add_sub_cancel_left, List.getElem?_append_left hi, List.getElem?_eq_getElem hi, Option.getD_some]

theorem toNat_ofNat_byte (v : ℕ) : (UInt8.ofNat v).toNat = v % 256 := rfl

theorem length_lrput16 (v : ℕ) : (lrput16 v).length = 2 := rfl

theorem length_lrput32 (v : ℕ) : (lrput32 v).length = 4 := rfl

theorem Holds.get16 (h : Holds p o (lrput16 v)) : lr16 p o 0 = v % 65536 := by
  have h0 := h.getByte (i := 0) (by rw [length_lrput16]; omega)
  have h1 := h.getByte (i := 1) (by rw [length_lrput16]; omega)
  simp only [lrput16, List.getElem_cons_zero, List.getElem_cons_succ, toNat_ofNat_byte, Nat.add_zero] at h0 h1
  rw [lr16, Nat.mul_zero, Nat.add_zero, h0, h1]
  omega

theorem lr16_add (p : Bytes) (o x i : ℕ) : lr16 p o (x + i) = lr16 p (o + 2 * x) i := by
  simp only [lr16, Nat.mul_add, ← Nat.add_assoc]

theorem lr16_lt (p : Bytes) (o x : ℕ) : lr16 p o x < 65536 := by
  have h0 := (p.getD (o + 2 * x) 0).toNat_lt
  have h1 := (p.getD (o + 2 * x + 1) 0).toNat_lt
  rw [lr16, byte, byte]
  omega

theorem Holds.get32 (h : Holds p o (lrput32 v)) (hv : v < 2 ^ 32) : lr32 p o = v := by
  have h0 := h.left.get16
  have h1 := h.right.get16
  rw [length_lrput16] at h1
  rw [lr32, h0, show lr16 p o 1 = lr16 p (o + 2) 0 from lr16_add p o 1 0, h1]
  omega

/-- The states of a cursor, from the bottom. -/
theorem Holds.get16s {l : List ℕ} (h : Holds p o (l.flatMap lrput16)) (hl : ∀ s ∈ l, s < 65536) :
    (List.range l.length).map (lr16 p o) = l := by
  induction l generalizing o with
  | nil => rfl
  | cons s l ih =>
      rw [List.flatMap_cons] at h
      have hs := h.left.get16
      rw [Nat.mod_eq_of_lt (hl s List.mem_cons_self)] at hs
      have hrest := ih h.right fun t ht => hl t (List.mem_cons_of_mem _ ht)
      rw [length_lrput16] at hrest
      rw [List.length_cons, List.range_succ_eq_map, List.map_cons, List.map_map, hs]
      congr 1
      refine Eq.trans (List.map_congr_left fun i _ => ?_) hrest
      rw [Function.comp_apply, Nat.succ_eq_one_add, lr16_add]

/-- The log of an answer. -/
theorem Holds.getLog {l : List (ℕ × ℕ)} (h : Holds p o (l.flatMap fun e => lrput16 e.1 ++ lrput32 e.2))
    (hl : ∀ e ∈ l, e.1 < 65536 ∧ e.2 < 2 ^ 32) : logAt p o l.length = l := by
  induction l generalizing o with
  | nil => rfl
  | cons e l ih =>
      rw [List.flatMap_cons] at h
      obtain ⟨he, he'⟩ := hl e List.mem_cons_self
      have hr := h.left.left.get16
      rw [Nat.mod_eq_of_lt he] at hr
      have hpos := h.left.right.get32 he'
      have hrest := ih h.right fun t ht => hl t (List.mem_cons_of_mem _ ht)
      rw [List.length_cons, logAt, hr]
      exact congrArg₂ _ (congrArg _ hpos) hrest

/-- What a cursor says. -/
structure Reads (c : Bytes) (pos : ℕ) (st : List ℕ) : Prop where
  pos : lr32 c 0 = pos
  depth : lr32 c 4 = st.length
  states : states c = st
  room : 10 ≤ c.length ∧ 8 + 2 * st.length ≤ c.length

theorem reads_c0 : Reads c0 0 [0] := ⟨by decide, by decide, by decide, by decide⟩

/-- The numbers of a walk fit the answer. -/
structure Fits (w : Walk) : Prop where
  pos : w.pos < 2 ^ 32
  some : 0 < w.st.length
  deep : w.st.length ≤ 0xffffff
  states : ∀ s ∈ w.st, s < 65536
  log : ∀ e ∈ w.log, e.1 < 65536 ∧ e.2 < 2 ^ 32
  long : w.log.length < 2 ^ 32

theorem length_flatMap_lrput16 (l : List ℕ) : (l.flatMap lrput16).length = 2 * l.length := by
  induction l with
  | nil => rfl
  | cons s l ih =>
      rw [List.flatMap_cons, List.length_append, ih, length_lrput16, List.length_cons]
      omega

theorem answer_parts {w : Walk} (z : Status) (h : Fits w) :
    Reads (answer z w) w.pos w.st ∧ byte (answer z w) (8 + 2 * w.st.length) = z.code.toNat ∧
      lr32 (answer z w) (8 + 2 * w.st.length + 1) = w.log.length ∧
      logAt (answer z w) (8 + 2 * w.st.length + 5) w.log.length = w.log.reverse := by
  have hall := holds_self (answer z w)
  conv at hall => arg 3; rw [answer]
  have hlog := hall.right
  have hn := hall.left.right
  have hz := hall.left.left.right
  have hst := hall.left.left.left.right
  have hd := hall.left.left.left.left.right
  have hpos := hall.left.left.left.left.left
  have hpos32 := hpos.get32 h.pos
  have hd32 := hd.get32 (Nat.lt_of_le_of_lt h.deep (by decide))
  simp only [List.length_append, length_lrput32, length_flatMap_lrput16, List.length_reverse,
    List.length_singleton, Nat.zero_add, ← Nat.add_assoc] at hlog hn hz hst hd32
  have hstates : states (answer z w) = w.st := by
    have := hst.get16s fun s hs => h.states s (List.mem_reverse.mp hs)
    rw [List.length_reverse] at this
    rw [states, hd32, this, List.reverse_reverse]
  have hlen : (answer z w).length ≥ 8 + 2 * w.st.length + 5 := by
    simp only [answer, List.length_append, length_lrput32, length_flatMap_lrput16, List.length_reverse,
      List.length_singleton]
    omega
  refine ⟨⟨hpos32, hd32, hstates, by omega, by omega⟩, ?_, hn.get32 h.long, ?_⟩
  · have := hz.getByte (i := 0) (by rw [List.length_singleton]; omega)
    simpa using this
  · have := hlog.getLog fun e he => h.log e (List.mem_reverse.mp he)
    rw [List.length_reverse] at this
    exact this

/-- A slice from a cursor. -/
theorem hostLrRun_reads {t k c : Bytes} {st : List ℕ} {pos look : ℕ} (steps : ℕ) (ht : WellFormed t)
    (hk : k.length % 2 = 0) (hc : Reads c pos st) (hst : 0 < st.length) (hdeep : st.length ≤ 0xffffff) :
    hostLrRun steps t k c look =
      some (answer (walk t k steps ⟨pos, st, look, [], []⟩).1 (walk t k steps ⟨pos, st, look, [], []⟩).2,
        (walk t k steps ⟨pos, st, look, [], []⟩).2.read) := by
  have hhead := ht.head
  have hsize := ht.size
  have hkinds := ht.kinds
  have hroom := hc.room
  have hdepth := hc.depth
  rw [hostLrRun, if_neg (by omega), if_neg (by omega), hc.pos, hc.states]

end LoveRuntime.Lr

/-! Slices compose: however the run is cut, it ends as the run without a budget does, with the
same log and every token read as the same kind. -/

namespace LoveRuntime.Lr

variable {t k : Bytes} {say : ℕ → ℕ} {w w' v v' : Walk} {o : Outcome}

/-- How a walk that stopped ends the run. -/
def outcome (w : Walk) : Status → Option Outcome
  | .accept => some ⟨.ok, w.log.reverse, w.read.reverse⟩
  | .error => some ⟨.err w.pos, w.log.reverse, w.read.reverse⟩
  | _ => none

/-- The run that asks at every turn, `n` turns of it at most. -/
def asking (t k : Bytes) (say : ℕ → ℕ) : ℕ → Walk → Option Outcome
  | 0, _ => none
  | n + 1, w =>
      match next t k say w with
      | .ok w' => asking t k say n w'
      | .error z => outcome w z

/-- The driver, on walks. -/
def slices (t k : Bytes) (say : ℕ → ℕ) : ℕ → (ℕ → ℕ) → Walk → Option Outcome
  | 0, _, _ => none
  | m + 1, bud, w =>
      match walk t k (bud 0) w with
      | (.more, w) => slices t k say m (fun i => bud (i + 1)) w.calm
      | (.say, w) => slices t k say m (fun i => bud (i + 1)) (w.said say)
      | (z, w) => outcome w z

theorem outcome_calm (w : Walk) (z : Status) : outcome w.calm z = outcome w z := by
  cases z <;> rfl

/-- What a slice does in step with the run that asks. -/
structure Walked (t k : Bytes) (say : ℕ → ℕ) (n : ℕ) (v v' : Walk) (z : Status) : Prop where
  shadows : Shadows t k say v'
  turns : ∃ j ≤ n, (∀ m, asking t k say (m + j) v.calm = asking t k say m v'.calm) ∧
    (∀ o, asking t k say j v.calm ≠ some o) ∧ (z = .more → j = n) ∧ (j = 0 → v' = v)
  stopped : z = .accept ∨ z = .error → next t k say v'.calm = .error z
  asks : z = .say → v'.look = 0xffff ∧ kindAt k v'.pos = 0xffff ∧ step t k v' = .error .say

theorem step_more : step t k v ≠ .error .more := by
  intro h
  cases hlook : lookAt t k v (lrTop [] v.st) with
  | none =>
      simp only [step, hlook] at h
      split_ifs at h <;> cases h
  | some r =>
      simp only [step, hlook] at h
      split_ifs at h <;> cases h

theorem walk_walked (hword : Says say) (hsteady : Steady t k say) {n : ℕ} {z : Status} (hv : Shadows t k say v)
    (h : walk t k n v = (z, v')) : Walked t k say n v v' z := by
  induction n generalizing v with
  | zero =>
      cases h
      exact ⟨hv, ⟨0, Nat.le_refl 0, fun _ => rfl, nofun, fun _ => rfl, fun _ => rfl⟩, nofun, nofun⟩
  | succ n ih =>
      rw [walk] at h
      cases hstep : step t k v with
      | error z' =>
          rw [hstep] at h
          cases h
          refine ⟨hv, ⟨0, Nat.zero_le _, fun _ => rfl, nofun, fun hz => ?_, fun _ => rfl⟩, fun hz => ?_, fun hz => ?_⟩
          · rw [hz] at hstep
            exact absurd hstep step_more
          · have hne : step t k v' ≠ .error .say := fun he => by
              rw [hstep] at he
              cases he
              simp at hz
            rw [next_calm hword hv.1 hne, hstep]
            rfl
          · rw [hz] at hstep
            exact ⟨(step_say hstep).1, (step_say hstep).2, hstep⟩
      | ok u =>
          rw [hstep] at h
          obtain ⟨hu, hnext⟩ := hv.turn hword hsteady hstep
          obtain ⟨hshadows, ⟨j, hj, hturns, hnone, hmore, -⟩, hstopped, hasks⟩ := ih hu h
          refine ⟨hshadows, ⟨j + 1, Nat.succ_le_succ hj, fun m => ?_, fun o => ?_, fun hz => ?_, nofun⟩,
            hstopped, hasks⟩
          · rw [← Nat.add_assoc, asking, hnext]
            exact hturns m
          · rw [asking, hnext]
            exact hnone o
          · rw [hmore hz]

theorem asking_add {n : ℕ} (j : ℕ) (h : asking t k say n v = some o) : asking t k say (n + j) v = some o := by
  induction n generalizing v with
  | zero => cases h
  | succ n ih =>
      rw [Nat.add_right_comm, asking]
      rw [asking] at h
      cases hnext : next t k say v with
      | ok v' =>
          rw [hnext] at h
          exact ih h
      | error z =>
          rw [hnext] at h
          exact h

/-- The turns taken are behind an outcome. -/
theorem asking_turns {n j : ℕ} (hn : asking t k say n v = some o) (hnone : ∀ o, asking t k say j v ≠ some o)
    (hturns : ∀ m, asking t k say (m + j) v = asking t k say m v') :
    ∃ m, n = m + j ∧ asking t k say m v' = some o := by
  have hlt : j ≤ n := by
    by_contra hle
    obtain ⟨i, rfl⟩ := Nat.exists_eq_add_of_le (Nat.le_of_not_le hle)
    exact hnone o (asking_add i hn)
  obtain ⟨m, rfl⟩ := Nat.exists_eq_add_of_le' hlt
  exact ⟨m, rfl, by rw [← hturns, hn]⟩

/-- What the slices come to, the run that asks comes to. -/
theorem slices_asking (hword : Says say) (hsteady : Steady t k say) {m : ℕ} {bud : ℕ → ℕ}
    (hv : Shadows t k say v) (h : slices t k say m bud v = some o) : ∃ n, asking t k say n v.calm = some o := by
  induction m generalizing bud v with
  | zero => cases h
  | succ m ih =>
      rw [slices] at h
      cases hr : walk t k (bud 0) v with
      | mk z u =>
          obtain ⟨hshadows, ⟨j, -, hturns, -⟩, hstopped, hasks⟩ := walk_walked hword hsteady hv hr
          rw [hr] at h
          cases z with
          | more =>
              obtain ⟨n, hn⟩ := ih hshadows.calm h
              exact ⟨n + j, by rw [hturns]; exact hn⟩
          | say =>
              obtain ⟨n, hn⟩ := ih (hshadows.said (hasks rfl).2.1) h
              exact ⟨n + j, by rw [hturns]; exact hn⟩
          | accept =>
              refine ⟨1 + j, ?_⟩
              rw [hturns, asking, hstopped (Or.inl rfl)]
              exact h
          | error =>
              refine ⟨1 + j, ?_⟩
              rw [hturns, asking, hstopped (Or.inr rfl)]
              exact h

/-- A token is asked about once: what is said of it is then taken, or the run that asks
comes to nothing. -/
theorem said_ne {n : ℕ} (h : step t k v = .error .say) (hlook : v.look = 0xffff)
    (hn : asking t k say n v.calm = some o) : say v.pos ≠ 0xffff := by
  intro hsay
  have hv : v.said say = v := by
    obtain ⟨pos, st, look, log, read⟩ := v
    simp only [Walk.said] at hlook hsay ⊢
    rw [hsay, hlook]
  cases n with
  | zero => cases hn
  | succ n =>
      rw [asking, next, said_calm, hv, h] at hn
      cases hn

/-- How far a run that is over in `n` turns is from its end. -/
def far (n : ℕ) (v : Walk) : ℕ := 2 * n + if v.look = 0xffff then 1 else 0

/-- A slice gets nearer to the end, or ends. -/
theorem far_lt {n m j b : ℕ} (hb : 0 < b) {z : Status} (hw : Walked t k say b v v' z)
    (hnm : n = m + j) (hj : z = .more → j = b) (hz : j = 0 → v' = v) (hm : asking t k say m v'.calm = some o) :
    (z = .more → far m v'.calm < far n v) ∧ (z = .say → far m (v'.said say) < far n v) := by
  refine ⟨fun hmore => ?_, fun hsay => ?_⟩
  · have := hj hmore
    simp only [far]
    split <;> split <;> omega
  · obtain ⟨hlook, -, hstep⟩ := hw.asks hsay
    have hne := said_ne hstep hlook hm
    have hsaid : far m (v'.said say) = 2 * m := by rw [far, if_neg (show (v'.said say).look ≠ 0xffff from hne), Nat.add_zero]
    rw [hsaid, far]
    by_cases hj0 : j = 0
    · rw [hz hj0] at hlook
      rw [if_pos hlook]
      omega
    · omega

/-- What the run that asks comes to, the slices come to. -/
theorem asking_slices (hword : Says say) (hsteady : Steady t k say) {n d : ℕ} {b : ℕ → ℕ}
    (hb : ∀ i, 0 < b i) (hv : Shadows t k say v) (hd : far n v ≤ d)
    (h : asking t k say n v.calm = some o) : ∃ m, slices t k say m b v = some o := by
  induction d generalizing n b v with
  | zero =>
      cases n with
      | zero => cases h
      | succ n =>
          rw [far] at hd
          omega
  | succ d ih =>
      cases hr : walk t k (b 0) v with
      | mk z u =>
          have hw := walk_walked hword hsteady hv hr
          obtain ⟨j, -, hturns, hnone, hj, hz⟩ := hw.turns
          obtain ⟨m, hnm, hm⟩ := asking_turns h hnone hturns
          obtain ⟨hmore, hsay⟩ := far_lt (hb 0) hw hnm hj hz hm
          cases z with
          | more =>
              have hlt := hmore rfl
              obtain ⟨m', hm'⟩ := ih (n := m) (b := fun i => b (i + 1)) (fun i => hb (i + 1))
                hw.shadows.calm (by omega) hm
              exact ⟨m' + 1, by rw [slices, hr]; exact hm'⟩
          | say =>
              have hlt := hsay rfl
              obtain ⟨m', hm'⟩ := ih (n := m) (b := fun i => b (i + 1)) (fun i => hb (i + 1))
                (hw.shadows.said (hw.asks rfl).2.1) (by omega) hm
              exact ⟨m' + 1, by rw [slices, hr]; exact hm'⟩
          | accept =>
              refine ⟨1, ?_⟩
              rw [slices, hr]
              cases m with
              | zero => cases hm
              | succ m =>
                  rw [asking, hw.stopped (Or.inl rfl)] at hm
                  exact hm
          | error =>
              refine ⟨1, ?_⟩
              rw [slices, hr]
              cases m with
              | zero => cases hm
              | succ m =>
                  rw [asking, hw.stopped (Or.inr rfl)] at hm
                  exact hm

/-- With turns to spare the run without a budget is the slices. -/
theorem whole_slices (hword : Says say) (hsteady : Steady t k say) {n m N : ℕ} (hv : Shadows t k say v)
    (hN : n ≤ N) (h : asking t k say n v.calm = some o) (hN' : n < N) :
    whole t k say N m v = slices t k say m (fun _ => N) v := by
  induction m generalizing n v with
  | zero => rfl
  | succ m ih =>
      cases hr : walk t k N v with
      | mk z u =>
          have hw := walk_walked hword hsteady hv hr
          obtain ⟨j, -, hturns, hnone, hj, -⟩ := hw.turns
          obtain ⟨i, hni, hi⟩ := asking_turns h hnone hturns
          rw [whole, slices, hr]
          cases z with
          | more =>
              have := hj rfl
              omega
          | say => exact ih (hw.shadows.said (hw.asks rfl).2.1) (by omega) hi (by omega)
          | accept => rfl
          | error => rfl

theorem whole_imp_slices {m N : ℕ} (h : whole t k say N m v = some o) :
    slices t k say m (fun _ => N) v = some o := by
  induction m generalizing v with
  | zero => cases h
  | succ m ih =>
      rw [whole] at h
      rw [slices]
      cases hr : walk t k N v with
      | mk z u =>
          rw [hr] at h
          cases z with
          | more => cases h
          | say => exact ih h
          | accept => exact h
          | error => exact h

/-- The run without a budget and the slices come to the same. -/
theorem slices_iff_whole (hword : Says say) (hsteady : Steady t k say) {bud : ℕ → ℕ} (hbud : ∀ i, 0 < bud i)
    (hv : Shadows t k say v) :
    (∃ m, slices t k say m bud v = some o) ↔ ∃ N m, whole t k say N m v = some o := by
  constructor
  · rintro ⟨m, hm⟩
    obtain ⟨n, hn⟩ := slices_asking hword hsteady hv hm
    obtain ⟨m', hm'⟩ := asking_slices hword hsteady (b := fun _ => n + 1) (fun _ => Nat.succ_pos n) hv
      (Nat.le_refl _) hn
    exact ⟨n + 1, m', by rw [whole_slices hword hsteady hv (Nat.le_succ n) hn (Nat.lt_succ_self n), hm']⟩
  · rintro ⟨N, m, hm⟩
    obtain ⟨n, hn⟩ := slices_asking hword hsteady hv (whole_imp_slices hm)
    exact asking_slices hword hsteady hbud hv (Nat.le_refl _) hn

/-! ### Through the cursors -/

/-- What fits an answer's bytes, the bounds on the position and the depth apart. -/
structure Sized (n : ℕ) (w : Walk) : Prop where
  some : 0 < w.st.length
  states : ∀ s ∈ w.st, s < 65536
  log : ∀ e ∈ w.log, e.1 < 65536 ∧ e.2 ≤ w.pos
  long : w.log.length ≤ n

theorem goto_lt (h : Bytes) (A q : ℕ) : goto h A q < 65536 := by
  rw [goto]
  split <;> split <;> exact lr16_lt h _ _

theorem Sized.turn {n : ℕ} (h : Sized n w) (hstep : step t k w = .ok w') : Sized (n + 1) w' := by
  obtain ⟨-, kind, look, -, ⟨rfl, ha⟩ | ⟨rfl, -, hr, hL⟩⟩ := step_cases hstep
  · refine ⟨Nat.succ_pos _, fun s hs => ?_, fun e he => ?_, Nat.le_succ_of_le h.long⟩
    · rcases List.mem_cons.mp hs with hs | hs
      · rw [hs]
        exact Nat.lt_trans ha (by decide)
      · exact h.states s hs
    · exact ⟨(h.log e he).1, Nat.le_succ_of_le (h.log e he).2⟩
  · refine ⟨Nat.succ_pos _, fun s hs => ?_, fun e he => ?_, Nat.succ_le_succ h.long⟩
    · rcases List.mem_cons.mp hs with hs | hs
      · rw [hs]
        exact goto_lt t _ _
      · exact h.states s (List.mem_of_mem_drop hs)
    · rcases List.mem_cons.mp he with he | he
      · rw [he]
        exact ⟨Nat.lt_trans hr (lr16_lt t 0 3), Nat.le_refl _⟩
      · exact h.log e he

theorem walk_sized {n i : ℕ} {z : Status} (h : Sized i w) (hw : walk t k n w = (z, w')) : Sized (i + n) w' := by
  induction n generalizing w i with
  | zero =>
      cases hw
      exact h
  | succ n ih =>
      rw [walk] at hw
      cases hstep : step t k w with
      | error z' =>
          rw [hstep] at hw
          cases hw
          exact ⟨h.some, h.states, h.log, Nat.le_trans h.long (Nat.le_add_right _ _)⟩
      | ok u =>
          rw [hstep] at hw
          have := ih (h.turn hstep) hw
          rwa [Nat.add_assoc, Nat.add_comm 1 n] at this

/-- The walk with an earlier log behind its own. -/
def Walk.onto (log : List (ℕ × ℕ)) (read : List ℕ) (w : Walk) : Walk :=
  { w with log := w.log ++ log, read := w.read ++ read }

theorem step_onto (log : List (ℕ × ℕ)) (read : List ℕ) (w : Walk) :
    step t k (w.onto log read) = (step t k w).map (Walk.onto log read) := by
  obtain ⟨pos, st, look, l, r⟩ := w
  have hlook : lookAt t k ⟨pos, st, look, l ++ log, r ++ read⟩ = lookAt t k ⟨pos, st, look, l, r⟩ := rfl
  rw [step, step]
  unfold Walk.onto
  dsimp only
  rw [hlook]
  cases lookAt t k ⟨pos, st, look, l, r⟩ (lrTop [] st) with
  | none => split_ifs <;> rfl
  | some p =>
      simp only
      split_ifs <;> rfl

theorem walk_onto (log : List (ℕ × ℕ)) (read : List ℕ) (n : ℕ) (w : Walk) :
    walk t k n (w.onto log read) = ((walk t k n w).1, (walk t k n w).2.onto log read) := by
  induction n generalizing w with
  | zero => rfl
  | succ n ih =>
      rw [walk, walk, step_onto]
      cases step t k w with
      | error z => rfl
      | ok u => exact ih u

/-- The position and the depth stay within what a cursor holds. -/
def Bounded (t k : Bytes) (say : ℕ → ℕ) : Prop :=
  ∀ w, Passes t k say w → w.pos < 2 ^ 32 ∧ w.st.length ≤ 0xffffff

theorem Shadows.bounded (hb : Bounded t k say) (h : Shadows t k say v) :
    v.pos < 2 ^ 32 ∧ v.st.length ≤ 0xffffff := by
  obtain ⟨-, w, hpass, -, hcalm⟩ := h
  obtain ⟨hpos, hst, -⟩ := calm_eq hcalm
  rw [← hpos, ← hst]
  exact hb w hpass

/-- The driver is the slices. -/
theorem drive_slices (ht : WellFormed t) (hk : k.length % 2 = 0) (hword : Says say) (hsteady : Steady t k say)
    (hb : Bounded t k say) {m : ℕ} {bud : ℕ → ℕ} (hbud : ∀ i, bud i < 2 ^ 32) {c : Bytes}
    (hc : Reads c v.pos v.st) (hst : 0 < v.st.length) (hstates : ∀ s ∈ v.st, s < 65536)
    (hv : Shadows t k say v) :
    drive t k say m bud c v.look v.log.reverse v.read.reverse = slices t k say m bud v := by
  induction m generalizing bud c v with
  | zero => rfl
  | succ m ih =>
      have hdeep := (hv.bounded hb).2
      rw [drive, hostLrRun_reads (bud 0) ht hk hc hst hdeep, slices]
      -- the slice's own walk, and the run's behind it
      have honto : v = Walk.onto v.log v.read ⟨v.pos, v.st, v.look, [], []⟩ := rfl
      have hwalk := walk_onto (t := t) (k := k) v.log v.read (bud 0) ⟨v.pos, v.st, v.look, [], []⟩
      rw [← honto] at hwalk
      have hsized := walk_sized (t := t) (k := k) (n := bud 0) (i := 0)
        (w := ⟨v.pos, v.st, v.look, [], []⟩) ⟨hst, hstates, nofun, Nat.le_refl 0⟩ rfl
      generalize walk t k (bud 0) ⟨v.pos, v.st, v.look, [], []⟩ = r at hwalk hsized ⊢
      obtain ⟨z, u⟩ := r
      have hw := walk_walked hword hsteady hv hwalk
      have hbounds := hw.shadows.bounded hb
      have hpos : u.pos < 2 ^ 32 := hbounds.1
      have hfits : Fits u := ⟨hpos, hsized.some, hbounds.2, hsized.states,
        fun e he => ⟨(hsized.log e he).1, Nat.lt_of_le_of_lt (hsized.log e he).2 hpos⟩,
        Nat.lt_of_le_of_lt hsized.long (by rw [Nat.zero_add]; exact hbud 0)⟩
      obtain ⟨hreads, hz, hn, hlog⟩ := answer_parts z hfits
      have hlog' : v.log.reverse ++ u.log.reverse = (u.onto v.log v.read).log.reverse := by
        rw [Walk.onto, List.reverse_append]
      have hread' : v.read.reverse ++ u.read.reverse = (u.onto v.log v.read).read.reverse := by
        rw [Walk.onto, List.reverse_append]
      rw [hwalk]
      simp only [hreads.depth, hz, hn, hlog, hlog', hread', hreads.pos]
      cases z with
      | more =>
          exact ih (v := (u.onto v.log v.read).calm) (fun i => hbud (i + 1)) hreads hsized.some hsized.states
            hw.shadows.calm
      | say =>
          exact ih (v := (u.onto v.log v.read).said say) (fun i => hbud (i + 1)) hreads hsized.some
            hsized.states (hw.shadows.said (hw.asks rfl).2.1)
      | accept => rfl
      | error => rfl

/-- Slices compose. -/
theorem drive_iff_whole (ht : WellFormed t) (hk : k.length % 2 = 0) (hword : Says say) (hsteady : Steady t k say)
    (hb : Bounded t k say) {bud : ℕ → ℕ} (hbud : ∀ i, 0 < bud i ∧ bud i < 2 ^ 32) :
    (∃ m, drive t k say m bud c0 0xffff [] [] = some o) ↔ ∃ N m, whole t k say N m start = some o := by
  have hdrive : ∀ m, drive t k say m bud c0 0xffff [] [] = slices t k say m bud start := fun m =>
    drive_slices (v := start) ht hk hword hsteady hb (fun i => (hbud i).2) reads_c0 (by decide) (by decide)
      shadows_start
  simp only [hdrive]
  exact slices_iff_whole hword hsteady (fun i => (hbud i).1) shadows_start

/-! ### A table -/

/-- The table of `%nonassoc '='`, `S : E ';' ; E : E '=' E | 'x' ;`. The kinds are `$end`, `x`, `=`
and `;`. -/
def equation : Bytes :=
  let head := [4, 2, 7, 3, 6, 4]
  let rules := [0, 1, 1] ++ [2, 3, 1]
  let defaults := [0, 0, 3, 0, 0, 1, 2]
  let bases := [0, 0, 0xffff, 3, 0, 0xffff, 3]
  let gotos := [4, 1] ++ [0xffff, 0]
  let actions := [4, 2, 3, 5, 2, 0] ++ [4, 0, 1, 1, 3, 6]
  (head ++ rules ++ defaults ++ bases ++ gotos ++ actions ++ [0, 0, 0, 6] ++
    [0xffff, 0xffff, 0xffff, 1]).flatMap lrput16

/-- `x = x` and a token to say. -/
def tokens : Bytes := [1, 2, 1, 0xffff].flatMap lrput16

theorem wellFormed_equation : WellFormed equation :=
  ⟨by decide, by decide, by decide, by decide, by decide, by decide⟩

/-- The next state of the run without a budget, the same one where it is over. -/
def advance (t k : Bytes) (say : ℕ → ℕ) (w : Walk) : Walk :=
  match step t k w with
  | .ok w' => w'
  | .error .say => w.said say
  | .error _ => w

theorem passes_mem {L : List Walk} (hstart : start ∈ L) (hturn : ∀ w ∈ L, advance t k say w ∈ L)
    (h : Passes t k say w) : w ∈ L := by
  induction h with
  | start => exact hstart
  | turn _ hstep ih =>
      have := hturn _ ih
      rwa [advance, hstep] at this
  | say _ hstep ih =>
      have := hturn _ ih
      rwa [advance, hstep] at this

theorem steady_of_mem {L : List Walk} (hstart : start ∈ L) (hturn : ∀ w ∈ L, advance t k say w ∈ L)
    (hkeeps : ∀ w ∈ L, (advance t k say w).pos = w.pos → kindAt k w.pos = 0xffff → 0xffff < say w.pos →
      Keeps t (say w.pos) w.st (advance t k say w).st) : Steady t k say := by
  intro w w' hw hstep
  have := hkeeps w (passes_mem hstart hturn hw)
  rwa [advance, hstep] at this

/-- `;` where it can be shifted, else `=`. -/
def semicolon (_ : ℕ) : ℕ := 3 + 65536 * (2 + 1)

/-- `=` where it can be shifted, else `;`. -/
def equals (_ : ℕ) : ℕ := 2 + 65536 * (3 + 1)

def trace (n : ℕ) : List Walk := (List.range n).map fun i => (advance equation tokens semicolon)^[i] start

/-- Where the last of the walks turns to is one of them, so is where each does. -/
theorem advance_mem_trace {n : ℕ} (hback : (advance equation tokens semicolon)^[n] start ∈ trace n) {w : Walk}
    (hw : w ∈ trace n) : advance equation tokens semicolon w ∈ trace n := by
  obtain ⟨i, hi, rfl⟩ := List.mem_map.mp hw
  rw [← Function.iterate_succ_apply' (advance equation tokens semicolon) i start]
  rcases Nat.lt_or_eq_of_le (Nat.succ_le_of_lt (List.mem_range.mp hi)) with hlt | heq
  · exact List.mem_map.mpr ⟨i + 1, List.mem_range.mpr hlt, rfl⟩
  · rwa [heq]

theorem drive_iff_whole_equation :
    (∃ m, drive equation tokens semicolon m (fun _ => 1) c0 0xffff [] [] =
      some ⟨.ok, [(2, 1), (2, 3), (1, 3), (0, 4)], [1, 2, 1, 3]⟩) ↔
    ∃ N m, whole equation tokens semicolon N m start =
      some ⟨.ok, [(2, 1), (2, 3), (1, 3), (0, 4)], [1, 2, 1, 3]⟩ := by
  have hstart : start ∈ trace 12 := by with_unfolding_all decide
  have hturn : ∀ w ∈ trace 12, advance equation tokens semicolon w ∈ trace 12 :=
    fun _ => advance_mem_trace (by with_unfolding_all decide)
  have hkeeps : ∀ w ∈ trace 12, (advance equation tokens semicolon w).pos = w.pos →
      kindAt tokens w.pos = 0xffff → 0xffff < semicolon w.pos →
      Keeps equation (semicolon w.pos) w.st (advance equation tokens semicolon w).st := by
    simp only [Keeps]
    with_unfolding_all decide
  have hbounds : ∀ w ∈ trace 12, w.pos < 2 ^ 32 ∧ w.st.length ≤ 0xffffff := by with_unfolding_all decide
  exact drive_iff_whole wellFormed_equation (by decide)
    (fun _ => by show 3 + 65536 * (2 + 1) < 65536 + 65536 * 65536; decide) (steady_of_mem hstart hturn hkeeps)
    (fun w hw => hbounds w (passes_mem hstart hturn hw)) fun _ => ⟨Nat.one_pos, by decide⟩

theorem drive_succ {m : ℕ} {bud : ℕ → ℕ} {c : Bytes} {look : ℕ} {log : List (ℕ × ℕ)} {read : List ℕ}
    (h : drive t k say m bud c look log read = some o) :
    drive t k say (m + 1) bud c look log read = some o := by
  induction m generalizing bud c look log read with
  | zero => cases h
  | succ m ih =>
      rw [drive] at h ⊢
      cases hrun : hostLrRun (bud 0) t k c look with
      | none =>
          rw [hrun] at h
          exact h
      | some r =>
          rw [hrun] at h
          simp only at h ⊢
          split at h
          next => exact ih h
          next => exact h
          next => exact ih h
          next => exact h

theorem drive_unique {m m' : ℕ} {bud : ℕ → ℕ} {c : Bytes} {look : ℕ} {log : List (ℕ × ℕ)} {read : List ℕ}
    {o' : Outcome} (h : drive t k say m bud c look log read = some o)
    (h' : drive t k say m' bud c look log read = some o') : o = o' := by
  have hadd : ∀ {m o} (j : ℕ), drive t k say m bud c look log read = some o →
      drive t k say (m + j) bud c look log read = some o := fun j h => by
    induction j with
    | zero => exact h
    | succ j ih => exact drive_succ ih
  have h1 := hadd m' h
  rw [Nat.add_comm, hadd m h'] at h1
  exact Option.some.inj h1.symm

/-- With `x = x` read, `=` is refused and the token is `;`. A slice that ends after the
reduction asks again, and where `x = x` stood `=` can be shifted. -/
theorem not_drive_iff_whole : ¬ ∀ (t k : Bytes) (say bud : ℕ → ℕ) (o : Outcome), WellFormed t →
    k.length % 2 = 0 → Says say → (∀ i, 0 < bud i ∧ bud i < 2 ^ 32) →
    ((∃ m, drive t k say m bud c0 0xffff [] [] = some o) ↔ ∃ N m, whole t k say N m start = some o) := by
  intro h
  have hiff := h equation tokens equals (fun _ => 1) ⟨.ok, [(2, 1), (2, 3), (1, 3), (0, 4)], [1, 2, 1, 3]⟩
    wellFormed_equation (by decide) (fun _ => by show 2 + 65536 * (3 + 1) < 65536 + 65536 * 65536; decide)
    (fun _ => by decide)
  obtain ⟨m, hm⟩ := hiff.mpr ⟨100, 2, by with_unfolding_all decide⟩
  have herr : drive equation tokens equals 10 (fun _ => 1) c0 0xffff [] [] =
      some ⟨.err 4, [(2, 1), (2, 3), (1, 3)], [1, 2, 1, 2]⟩ := by with_unfolding_all decide
  cases drive_unique hm herr

end LoveRuntime.Lr
