import LoveRuntime.Model.Hornring
import Mathlib.Data.List.Basic
import Mathlib.Data.Nat.ModEq

/-! The ring is a lossless queue, whatever the calls and however often its indices wrap. -/

namespace LoveRuntime.Horn

variable {α : Type} {r : Ring α} {a b n : ℕ} {x y : UInt32}

/-! ### Indices -/

/-- A free-running index has counted to `a`. -/
def Counts (x : UInt32) (a : ℕ) : Prop := x.toNat = a % 2 ^ 32

theorem Counts.next (h : Counts x a) : Counts (x + 1) (a + 1) := by
  unfold Counts at h ⊢
  rw [UInt32.toNat_add, h]
  change (a % 2 ^ 32 + 1) % 2 ^ 32 = _
  omega

/-- The difference of two indices is that of their counts, across any wrap. -/
theorem Counts.sub (hx : Counts x a) (hy : Counts y b) (hle : b ≤ a) (hlt : a - b < 2 ^ 32) :
    (x - y).toNat = a - b := by
  unfold Counts at hx hy
  rw [UInt32.toNat_sub, hx, hy]
  omega

theorem Counts.ne_iff (hx : Counts x a) (hy : Counts y b) (hle : b ≤ a) (hlt : a - b < 2 ^ 32) : y ≠ x ↔ b < a := by
  have hsub := hx.sub hy hle hlt
  constructor
  case mp =>
    intro hne
    by_contra hnot
    apply hne
    apply UInt32.toNat_inj.mp
    unfold Counts at hx hy
    rw [hx, hy, show a = b by omega]
  case mpr =>
    rintro hlt' rfl
    rw [UInt32.sub_self] at hsub
    change 0 = a - b at hsub
    omega

/-- A capacity the ring takes: a power of two up to `2 ^ 31`. -/
def Capacity (n : UInt32) : Prop := ∃ k ≤ 31, n.toNat = 2 ^ k

theorem Capacity.le (h : Capacity r.n) : r.n.toNat ≤ 2 ^ 31 := by
  obtain ⟨k, hk, hn⟩ := h
  rw [hn]
  exact Nat.pow_le_pow_right (by decide) hk

theorem Capacity.pos (h : Capacity r.n) : 0 < r.n.toNat := by
  obtain ⟨k, -, hn⟩ := h
  rw [hn]
  exact Nat.two_pow_pos k

/-- The slot of a frame: its number modulo the capacity. -/
theorem at_eq (h : Capacity r.n) (hx : Counts x a) : r.at x = a % r.n.toNat * 2 := by
  obtain ⟨k, hk, hn⟩ := h
  have hmask : (r.n - 1).toNat = 2 ^ k - 1 := by
    have hpos := Nat.two_pow_pos k
    rw [UInt32.toNat_sub, hn]
    change (2 ^ 32 - 1 + 2 ^ k) % 2 ^ 32 = _
    have hlt : 2 ^ k < 2 ^ 32 := Nat.pow_lt_pow_right (by decide) (by omega)
    omega
  have hslot : (x &&& (r.n - 1)).toNat = a % 2 ^ k := by
    rw [UInt32.toNat_and, hmask, Nat.and_two_pow_sub_one_eq_mod, hx, Nat.mod_mod_of_dvd _ (Nat.pow_dvd_pow 2 (by omega))]
  have hbound : a % 2 ^ k < 2 ^ 31 :=
    (Nat.mod_lt _ (Nat.two_pow_pos k)).trans_le (Nat.pow_le_pow_right (by decide) hk)
  unfold Ring.at
  rw [UInt32.toNat_mul, hslot, hn]
  change a % 2 ^ k * 2 % 2 ^ 32 = _
  omega

/-- Frames less than a capacity apart stand in different slots. -/
theorem slot_ne (hlt : a < b) (hnear : b < a + n) : a % n ≠ b % n := by
  intro heq
  have hdvd : n ∣ b - a := (Nat.modEq_iff_dvd' hlt.le).mp heq
  exact absurd (Nat.le_of_dvd (by omega) hdvd) (by omega)

/-! ### The invariant -/

/-- The frame in the slot of the number `j`. -/
def Ring.frame (r : Ring α) (j : ℕ) : α × α := (r.buf (j % r.n.toNat * 2), r.buf (j % r.n.toNat * 2 + 1))

/-- A push's own state: its index has counted past what it laid, and from the consumer's index as copied there
is no more than a capacity. -/
structure PushHeld (n A P : ℕ) (p : Push α) : Prop where
  laid : p.laid.length = p.k
  wr : Counts p.wr (A + p.k)
  rd : ∃ R, Counts p.rd R ∧ R ≤ P ∧ A + p.k ≤ R + n

/-- A pull's own state: its index has counted past what came out, the next of what was accepted. -/
structure PullHeld (accepted : List (α × α)) (P : ℕ) (q : Pull α) : Prop where
  out : q.out.length = q.i
  next : (accepted.drop P).take q.i = q.out
  rd : Counts q.rd (P + q.i)
  wr : ∃ W, Counts q.wr W ∧ P + q.i ≤ W ∧ W ≤ accepted.length

/-- Every frame laid so far, those of a push under way too. -/
def Sys.laid (σ : Sys α) : List (α × α) := σ.accepted ++ (σ.push.map Push.laid).getD []

structure Held (n : UInt32) (σ : Sys α) : Prop where
  cap : σ.ring.n = n
  wr : Counts σ.ring.wr σ.accepted.length
  rd : Counts σ.ring.rd σ.pulled.length
  front : σ.pulled <+: σ.accepted
  push : ∀ p, σ.push = some p → PushHeld n.toNat σ.accepted.length σ.pulled.length p
  pull : ∀ q, σ.pull = some q → PullHeld σ.accepted σ.pulled.length q
  room : σ.laid.length ≤ σ.pulled.length + n.toNat
  frames : ∀ j f, σ.laid[j]? = some f → σ.pulled.length ≤ j → σ.ring.frame j = f
  answered : ∀ c ∈ σ.pushes, c.2 = 4 * (c.1.length : ℤ)

theorem laid_of_idle {σ : Sys α} (h : σ.push = none) : σ.laid = σ.accepted := by
  rw [Sys.laid, h]
  exact List.append_nil _

theorem laid_of_busy {σ : Sys α} {p : Push α} (h : σ.push = some p) : σ.laid = σ.accepted ++ p.laid := by
  rw [Sys.laid, h]
  rfl

namespace Held

variable {n : UInt32} {σ : Sys α} {p : Push α} {q : Pull α}

theorem accepted_le (h : Held n σ) : σ.accepted.length ≤ σ.pulled.length + n.toNat := by
  have hroom := h.room
  rw [Sys.laid, List.length_append] at hroom
  omega

theorem callPush (h : Held n σ) (s : ℕ → α) (nbytes : ℤ) (idle : σ.push = none) :
    Held n { σ with push := some (pushStart σ.ring s nbytes) } := by
  have hlaid : Sys.laid { σ with push := some (pushStart σ.ring s nbytes) } = σ.laid := by
    rw [laid_of_busy rfl, laid_of_idle idle]
    exact List.append_nil _
  constructor
  case cap => exact h.cap
  case wr => exact h.wr
  case rd => exact h.rd
  case front => exact h.front
  case push =>
    intro p hp
    cases hp
    exact ⟨rfl, h.wr, σ.pulled.length, h.rd, le_rfl, h.accepted_le⟩
  case pull => exact h.pull
  case room =>
    rw [hlaid]
    exact h.room
  case frames =>
    rw [hlaid]
    exact h.frames
  case answered => exact h.answered

/-- There is room for one frame more, by the copied index and so by the consumer's own. -/
theorem room_of_more (hn : Capacity σ.ring.n) (h : Held n σ) (busy : σ.push = some p) (more : p.More σ.ring) :
    ∃ R, Counts p.rd R ∧ R ≤ σ.pulled.length ∧ σ.accepted.length + p.k + 1 ≤ R + n.toNat := by
  have hp := h.push p busy
  obtain ⟨R, hrd, hR, hroom⟩ := hp.rd
  have hcap := hn.le
  have hlt : (p.wr - p.rd).toNat < σ.ring.n.toNat := more.2
  have hle := (h.front.length_le)
  rw [h.cap] at hcap hlt
  rw [hp.wr.sub hrd (by omega) (by omega)] at hlt
  exact ⟨R, hrd, hR, by omega⟩

theorem pushFrame (hn : Capacity σ.ring.n) (h : Held n σ) (busy : σ.push = some p) (more : p.More σ.ring) :
    Held n { σ with ring := p.write σ.ring, push := some p.next } := by
  have hp := h.push p busy
  obtain ⟨R, hrd, hR, hroom⟩ := h.room_of_more hn busy more
  have hlaid : Sys.laid { σ with ring := p.write σ.ring, push := some p.next } =
      σ.laid ++ [(p.s (p.k * 2), p.s (p.k * 2 + 1))] := by
    rw [laid_of_busy rfl, laid_of_busy busy, List.append_assoc]
    rfl
  have hlen : σ.laid.length = σ.accepted.length + p.k := by
    rw [laid_of_busy busy, List.length_append, hp.laid]
  have hat := at_eq hn hp.wr
  constructor
  case cap => exact h.cap
  case wr => exact h.wr
  case rd => exact h.rd
  case front => exact h.front
  case push =>
    intro p' hp'
    cases hp'
    refine ⟨?_, hp.wr.next, R, hrd, hR, hroom⟩
    rw [Push.next, List.length_append, hp.laid]
    rfl
  case pull => exact h.pull
  case room =>
    rw [hlaid, List.length_append, hlen, List.length_singleton]
    change _ ≤ σ.pulled.length + n.toNat
    omega
  case frames =>
    intro j f hj hfrom
    change σ.pulled.length ≤ j at hfrom
    rw [hlaid] at hj
    unfold Ring.frame Push.write
    simp only [hat]
    obtain hold | hnew := Nat.lt_or_ge j σ.laid.length
    · rw [List.getElem?_append_left hold] at hj
      have hslot : j % σ.ring.n.toNat ≠ (σ.accepted.length + p.k) % σ.ring.n.toNat :=
        slot_ne (hlen ▸ hold) (by rw [h.cap]; omega)
      rw [Cells.set_of_ne _ _ (by omega), Cells.set_of_ne _ _ (by omega), Cells.set_of_ne _ _ (by omega),
        Cells.set_of_ne _ _ (by omega)]
      exact h.frames j f hj hfrom
    · rw [List.getElem?_append_right hnew] at hj
      have hj0 : j - σ.laid.length = 0 := by
        have hlt := (List.getElem?_eq_some_iff.mp hj).1
        rw [List.length_singleton] at hlt
        omega
      rw [hj0] at hj
      cases hj
      rw [show j = σ.accepted.length + p.k by omega, Cells.set_of_ne _ _ (by omega), Cells.set_self, Cells.set_self]
  case answered => exact h.answered

theorem pushDone (h : Held n σ) (busy : σ.push = some p) :
    Held n (σ.endPush p) := by
  have hp := h.push p busy
  have haccepted : (σ.endPush p).accepted = σ.accepted ++ p.laid := by
    simp only [Sys.accepted, Sys.endPush, List.map_append, List.flatten_append, List.map_cons, List.map_nil, List.flatten_cons,
      List.flatten_nil, List.append_nil]
  have hlaid : (σ.endPush p).laid = σ.laid := by
    rw [laid_of_idle rfl, haccepted, laid_of_busy busy]
  constructor
  case cap => exact h.cap
  case wr =>
    rw [haccepted, List.length_append, hp.laid]
    exact hp.wr
  case rd => exact h.rd
  case front =>
    rw [haccepted]
    exact h.front.trans (List.prefix_append _ _)
  case push => nofun
  case pull =>
    intro q hq
    have hheld := h.pull q hq
    obtain ⟨W, hwr, hnext, hW⟩ := hheld.wr
    rw [haccepted]
    refine ⟨hheld.out, ?_, hheld.rd, W, hwr, hnext, ?_⟩
    · rw [← hheld.next, List.drop_append_of_le_length (by change σ.pulled.length ≤ _; omega),
        List.take_append_of_le_length (by rw [List.length_drop]; change q.i ≤ _ - σ.pulled.length; omega)]
      rfl
    · rw [List.length_append]
      omega
  case room =>
    rw [hlaid]
    exact h.room
  case frames =>
    rw [hlaid]
    exact h.frames
  case answered =>
    intro c hc
    obtain hold | hnew := List.mem_append.mp hc
    · exact h.answered c hold
    · cases List.mem_singleton.mp hnew
      simp only [Push.answer, hp.laid]
      exact Int.mul_comm _ _

theorem callPull (h : Held n σ) (len : ℤ) : Held n { σ with pull := some (pullStart σ.ring len) } := by
  constructor
  case cap => exact h.cap
  case wr => exact h.wr
  case rd => exact h.rd
  case front => exact h.front
  case push => exact h.push
  case pull =>
    intro q hq
    cases hq
    exact ⟨rfl, List.take_zero, h.rd, σ.accepted.length, h.wr, h.front.length_le, le_rfl⟩
  case room => exact h.room
  case frames => exact h.frames
  case answered => exact h.answered

theorem pullFrame (hn : Capacity σ.ring.n) (h : Held n σ) (busy : σ.pull = some q) (more : q.More) :
    Held n { σ with pull := some (q.next σ.ring) } := by
  have hq := h.pull q busy
  obtain ⟨W, hwr, hnext, hW⟩ := hq.wr
  have hcap := hn.le
  rw [h.cap] at hcap
  have haccepted := h.accepted_le
  have hlt : σ.pulled.length + q.i < W := (hwr.ne_iff hq.rd hnext (by omega)).mp more.2
  have hin : σ.pulled.length + q.i < σ.accepted.length := by omega
  have hframe : σ.ring.frame (σ.pulled.length + q.i) = σ.accepted[σ.pulled.length + q.i] := by
    apply h.frames _ _ _ (Nat.le_add_right _ _)
    rw [Sys.laid, List.getElem?_append_left hin, List.getElem?_eq_getElem hin]
  constructor
  case cap => exact h.cap
  case wr => exact h.wr
  case rd => exact h.rd
  case front => exact h.front
  case push => exact h.push
  case pull =>
    intro q' hq'
    cases hq'
    refine ⟨?_, ?_, hq.rd.next, W, hwr, hlt, hW⟩
    · rw [Pull.next, List.length_append, hq.out]
      rfl
    · change (σ.accepted.drop σ.pulled.length).take (q.i + 1) = q.out ++ [_]
      rw [List.take_add_one, hq.next, List.getElem?_drop, List.getElem?_eq_getElem hin, ← hframe, at_eq hn hq.rd]
      rfl
  case room => exact h.room
  case frames => exact h.frames
  case answered => exact h.answered

theorem pullDone [Zero α] (h : Held n σ) (busy : σ.pull = some q) :
    Held n (σ.endPull q) := by
  have hq := h.pull q busy
  obtain ⟨W, hwr, hnext, hW⟩ := hq.wr
  have hpulled : (σ.endPull q).pulled = σ.pulled ++ q.out := by
    simp only [Sys.pulled, Sys.endPull, List.map_append, List.flatten_append, List.map_cons, List.map_nil, List.flatten_cons,
      List.flatten_nil, List.append_nil, Pull.channels, Int.toNat_natCast]
    rw [List.take_append_of_le_length hq.out.ge, List.take_of_length_le hq.out.le]
  have hlen : (σ.pulled ++ q.out).length = σ.pulled.length + q.i := by rw [List.length_append, hq.out]
  constructor
  case cap => exact h.cap
  case wr => exact h.wr
  case rd =>
    rw [hpulled, hlen]
    exact hq.rd
  case front =>
    rw [hpulled]
    obtain ⟨rest, hrest⟩ := h.front
    change σ.pulled ++ q.out <+: σ.accepted
    rw [← hrest, ← hq.next, ← hrest, List.drop_left, List.prefix_append_right_inj]
    exact List.take_prefix _ _
  case push =>
    intro p hp
    obtain ⟨hlaid, hwr, R, hrd, hR, hroom⟩ := h.push p hp
    rw [hpulled, hlen]
    exact ⟨hlaid, hwr, R, hrd, by omega, hroom⟩
  case pull => nofun
  case room =>
    have hroom := h.room
    rw [hpulled, hlen]
    change σ.laid.length ≤ _
    omega
  case frames =>
    intro j f hj hfrom
    rw [hpulled, hlen] at hfrom
    exact h.frames j f hj (by omega)
  case answered => exact h.answered

theorem step [Zero α] {σ' : Sys α} (hn : Capacity n) (h : Held n σ) (hstep : Step σ σ') : Held n σ' := by
  have hn' : Capacity σ.ring.n := h.cap.symm ▸ hn
  cases hstep
  case callPush s nbytes idle => exact h.callPush s nbytes idle
  case pushFrame p busy more => exact h.pushFrame hn' busy more
  case pushDone p busy done => exact h.pushDone busy
  case callPull len idle => exact h.callPull len
  case pullFrame q busy more => exact h.pullFrame hn' busy more
  case pullDone q busy done => exact h.pullDone busy

end Held

theorem start_held (buf : Cells α) (n : UInt32) : Held n (start buf n) := by
  constructor
  case cap => rfl
  case wr => rfl
  case rd => rfl
  case front => exact List.nil_prefix
  case push => nofun
  case pull => nofun
  case room => exact Nat.zero_le _
  case frames => nofun
  case answered => nofun

variable [Zero α] {σ : Sys α} {buf : Cells α} {n : UInt32}

theorem Reached.held (hn : Capacity n) (h : Reached buf n σ) : Held n σ := by
  induction h with
  | start => exact start_held buf n
  | step before hstep ih => exact ih.step hn hstep

/-! ### Whole calls -/

/-- A push's loop is frames going in one after another, until the loop's own test ends it. -/
theorem Reached.pushLoop (h : Reached buf n σ) {p : Push α} (busy : σ.push = some p) (fuel : ℕ)
    (hfuel : p.frames ≤ p.k + fuel) :
    ∃ σ', Reached buf n σ' ∧ σ'.ring = (pushLoop fuel σ.ring p).1 ∧ σ'.push = some (pushLoop fuel σ.ring p).2 ∧
      ¬(pushLoop fuel σ.ring p).2.More (pushLoop fuel σ.ring p).1 ∧ σ'.pull = σ.pull ∧ σ'.pushes = σ.pushes ∧
      σ'.pulls = σ.pulls := by
  induction fuel generalizing σ p with
  | zero =>
      refine ⟨σ, h, rfl, busy, ?_, rfl, rfl, rfl⟩
      intro hmore
      have hlt : (p.k : ℤ) < p.frames := hmore.1
      omega
  | succ fuel ih =>
      unfold Horn.pushLoop
      by_cases hmore : p.More σ.ring
      case pos =>
        rw [if_pos hmore]
        exact ih (h.step (.pushFrame busy hmore)) rfl (by change p.frames ≤ (p.k + 1 : ℕ) + _; omega)
      case neg =>
        rw [if_neg hmore]
        exact ⟨σ, h, rfl, busy, hmore, rfl, rfl, rfl⟩

/-- A call of `hring_push` by itself is among the runs. -/
theorem Reached.hringPush (h : Reached buf n σ) (idle : σ.push = none) (s : ℕ → α) (nbytes : ℤ) :
    ∃ σ' laid, Reached buf n σ' ∧ σ'.ring = (hringPush σ.ring s nbytes).1 ∧ σ'.push = none ∧ σ'.pull = σ.pull ∧
      σ'.pushes = σ.pushes ++ [(laid, (hringPush σ.ring s nbytes).2)] ∧ σ'.pulls = σ.pulls := by
  obtain ⟨σ', h', hring, hpush, hover, hpull, hpushes, hpulls⟩ :=
    (h.step (.callPush s nbytes idle)).pushLoop rfl (nbytes.tdiv 4).toNat
      (by change nbytes.tdiv 4 ≤ (0 : ℕ) + _; omega)
  refine ⟨_, (Horn.pushLoop (nbytes.tdiv 4).toNat σ.ring (pushStart σ.ring s nbytes)).2.laid,
    h'.step (.pushDone hpush (hring ▸ hover)), ?_, rfl, hpull, ?_, hpulls⟩
  · rw [Sys.endPush, hring]
    rfl
  · rw [Sys.endPush, hpushes]
    rfl

theorem Reached.pullLoop (h : Reached buf n σ) {q : Pull α} (busy : σ.pull = some q) (fuel : ℕ)
    (hfuel : q.len ≤ q.i + fuel) :
    ∃ σ', Reached buf n σ' ∧ σ'.ring = σ.ring ∧ σ'.pull = some (pullLoop σ.ring fuel q) ∧
      ¬(pullLoop σ.ring fuel q).More ∧ σ'.push = σ.push ∧ σ'.pushes = σ.pushes ∧ σ'.pulls = σ.pulls := by
  induction fuel generalizing σ q with
  | zero =>
      refine ⟨σ, h, rfl, busy, ?_, rfl, rfl, rfl⟩
      intro hmore
      have hlt : (q.i : ℤ) < q.len := hmore.1
      omega
  | succ fuel ih =>
      unfold Horn.pullLoop
      by_cases hmore : q.More
      case pos =>
        rw [if_pos hmore]
        exact ih (h.step (.pullFrame busy hmore)) rfl (by change q.len ≤ (q.i + 1 : ℕ) + _; omega)
      case neg =>
        rw [if_neg hmore]
        exact ⟨σ, h, rfl, busy, hmore, rfl, rfl, rfl⟩

/-- A call of `hring_pull` by itself is among the runs. -/
theorem Reached.hringPull (h : Reached buf n σ) (idle : σ.pull = none) (len : ℤ) :
    ∃ σ', Reached buf n σ' ∧ σ'.ring = (hringPull σ.ring len).1 ∧ σ'.pull = none ∧ σ'.push = σ.push ∧
      σ'.pulls = σ.pulls ++ [(hringPull σ.ring len).2] ∧ σ'.pushes = σ.pushes := by
  obtain ⟨σ', h', hring, hpull, hover, hpush, hpushes, hpulls⟩ :=
    (h.step (.callPull len idle)).pullLoop rfl len.toNat (by change len ≤ (0 : ℕ) + _; omega)
  refine ⟨_, h'.step (.pullDone hpull hover), ?_, rfl, hpush, ?_, hpushes⟩
  · rw [Sys.endPull, hring]
    rfl
  · rw [Sys.endPull, hpulls]
    rfl

end LoveRuntime.Horn
