import Mathlib.Algebra.Ring.Nat
import LoveRuntime.Model.Inports
import Mathlib.Data.List.GetD
import Mathlib.Data.List.Infix
import Mathlib.Tactic.Common

/-! A port delivers its device's bytes in order: what it has delivered and what is still to come
make the stream, and what lies behind its position was delivered last. -/

namespace LoveRuntime.Inports

variable {p p' : Port} {got : List UInt8} {dev stream : List (List UInt8)} {lane : Lane} {room : Bool}

/-- What the port has yet to deliver, in the order in which it will. -/
def Port.toCome (p : Port) : List UInt8 := p.pushback ++ (p.run.drop p.rpos ++ p.dev.flatten)

/-- A push-back finds no byte pushed back and gives back the one delivered last, and no byte is
pushed back where the position is moved. -/
def oneBack (p : Port) (got : List UInt8) : Op → Prop
  | .unsee c => p.ungetcBuf = EOF ∧ (c = EOF ∨ ∃ b, got.getLast? = some b ∧ c = b.toNat)
  | .unchug _ => p.ungetcBuf = EOF
  | _ => True

/-! ## The door -/

theorem readn_landed {n : ℕ} {bytes : List UInt8} {dev' : Device} (h : readn n dev = (.landed bytes, dev')) :
    dev.flatten = bytes ++ dev'.flatten ∧ (0 < n → bytes ≠ []) ∧ bytes.length = athand n dev := by
  match dev, h with
  | (c :: frag) :: rest, h =>
      obtain ⟨hbytes, rfl⟩ := Prod.mk.inj h
      obtain rfl := Gulp.landed.inj hbytes
      refine ⟨?_, fun hn => ?_, ?_⟩
      · split_ifs with hlen
        · rw [List.take_of_length_le hlen]
          rfl
        · rw [List.flatten_cons, List.flatten_cons, ← List.append_assoc, List.take_append_drop]
      · obtain ⟨n, rfl⟩ := Nat.exists_eq_succ_of_ne_zero (Nat.ne_of_gt hn)
        exact nofun
      · rw [List.length_take, athand, Nat.min_comm]

theorem readn_busy {n : ℕ} {dev' : Device} (h : readn n dev = (.busy, dev')) :
    dev'.flatten = dev.flatten ∧ athand n dev = 0 := by
  match dev, h with
  | [] :: rest, h =>
      obtain ⟨-, rfl⟩ := Prod.mk.inj h
      exact ⟨rfl, Nat.zero_min n⟩
  | (c :: frag) :: rest, h => cases (Prod.mk.inj h).1

theorem readn_gone {n : ℕ} {dev' : Device} (h : readn n dev = (.gone, dev')) : dev = [] ∧ dev' = [] := by
  match dev, h with
  | [], h => exact ⟨rfl, (Prod.mk.inj h).2.symm⟩
  | [] :: rest, h => cases (Prod.mk.inj h).1
  | (c :: frag) :: rest, h => cases (Prod.mk.inj h).1

/-! ## What a port keeps -/

/-- The bytes delivered and those to come make the stream. The run's bytes behind the position end
with the byte pushed back, if there is one, and else with the one delivered last. -/
structure Kept (stream : List UInt8) (p : Port) (got : List UInt8) : Prop where
  whole : got ++ p.toCome = stream
  behind : p.run.take p.rpos <:+ got ++ p.pushback
  slot : p.ungetcBuf = EOF ∨ ∃ b : UInt8, p.ungetcBuf = b.toNat
  pos : p.rpos ≤ p.run.length
  cap : ∀ cap, p.rbuf = some cap → 0 < cap
  undressed : p.hasRun = false ∨ p.rbuf = none → p.run = []

theorem byte_ofNat (b : UInt8) : UInt8.ofNat ((b.toNat : ℤ) % 256).toNat = b := by
  have hb := b.toNat_lt
  have hmod : ((b.toNat : ℤ) % 256).toNat = b.toNat := by omega
  rw [hmod, UInt8.ofNat_toNat]

theorem byte_ne (b : UInt8) {k : ℤ} (hk : k < 0) : (b.toNat : ℤ) ≠ k := by omega

theorem byte_bmod (b : UInt8) : (b.toNat : ℤ).bmod (2 ^ 32) = b.toNat := by
  have hb := b.toNat_lt
  exact Int.bmod_eq_of_le (by omega) (by omega)

theorem pushback_empty (h : p.ungetcBuf = EOF) : p.pushback = [] := if_pos h

theorem pushback_full {b : UInt8} (h : p.ungetcBuf = b.toNat) : p.pushback = [b] := by
  rw [Port.pushback, h, if_neg (byte_ne b (by decide)), byte_ofNat]

theorem kept_ioAlloc (lane : Lane) (dev : Device) : Kept dev.flatten (ioAlloc lane dev) [] :=
  ⟨rfl, List.nil_suffix, .inl rfl, le_rfl, nofun, fun _ => rfl⟩

namespace Kept

variable {bytes : List UInt8}

theorem pending_iff (h : Kept bytes p got) : p.rpending = true ↔ p.rpos < p.run.length := by
  simp only [Port.rpending, Bool.and_eq_true, decide_eq_true_eq]
  refine ⟨fun hp => hp.2, fun hlt => ⟨⟨?_, ?_⟩, hlt⟩⟩
  · by_contra hrun
    rw [h.undressed (.inl (by simpa using hrun))] at hlt
    exact absurd hlt (Nat.not_lt_zero _)
  · by_contra hnone
    rw [h.undressed (.inr (by simpa using hnone))] at hlt
    exact absurd hlt (Nat.not_lt_zero _)

theorem pending_eq (h : Kept bytes p got) : p.pending = p.run.length - p.rpos := by
  rw [Port.pending]
  split_ifs with hp
  · rfl
  · rw [h.pending_iff] at hp
    omega

/-- Another look at the door brings nothing. -/
theorem look (h : Kept bytes p got) {dev' : Device} (hdev : dev'.flatten = p.dev.flatten) :
    Kept bytes { p with dev := dev' } got :=
  ⟨by rw [← h.whole, Port.toCome, Port.toCome, hdev]; rfl, h.behind, h.slot, h.pos, h.cap, h.undressed⟩

/-- The byte pushed back is delivered again. -/
theorem unslot (h : Kept bytes p got) {b : UInt8} (hb : p.ungetcBuf = b.toNat) :
    Kept bytes { p with ungetcBuf := EOF } (got ++ [b]) := by
  have hback := pushback_full hb
  refine ⟨?_, ?_, .inl rfl, h.pos, h.cap, h.undressed⟩
  · rw [← h.whole, Port.toCome, Port.toCome, hback, List.append_assoc]
    rfl
  · have hbehind := h.behind
    rw [hback] at hbehind
    simpa [Port.pushback] using hbehind

/-- The next bytes of the run are delivered. -/
theorem forth (h : Kept bytes p got) (hslot : p.ungetcBuf = EOF) {k : ℕ} (hk : p.rpos + k ≤ p.run.length) :
    Kept bytes { p with rpos := p.rpos + k } (got ++ (p.run.drop p.rpos).take k) := by
  have hback := pushback_empty hslot
  refine ⟨?_, ?_, h.slot, hk, h.cap, h.undressed⟩
  · rw [← h.whole, Port.toCome, Port.toCome, hback]
    simp only [Port.pushback, hslot, if_pos, List.nil_append, List.append_assoc]
    rw [← List.append_assoc (List.take _ _), ← List.drop_drop, List.take_append_drop]
  · obtain ⟨pre, hpre⟩ := h.behind
    rw [hback, List.append_nil] at hpre
    refine ⟨pre, ?_⟩
    simp only [Port.pushback, hslot, if_pos, List.append_nil]
    rw [← hpre, List.append_assoc, List.take_add]

/-- The last bytes of the run that were delivered are given back. -/
theorem back (h : Kept bytes p got) (hslot : p.ungetcBuf = EOF) {k : ℕ} (hk : k ≤ p.rpos) :
    Kept bytes { p with rpos := p.rpos - k } (got.take (got.length - k)) := by
  have hback := pushback_empty hslot
  obtain ⟨pre, hpre⟩ := h.behind
  rw [hback, List.append_nil] at hpre
  have hpos := h.pos
  have hsplit : p.run.take p.rpos = p.run.take (p.rpos - k) ++ (p.run.drop (p.rpos - k)).take k := by
    rw [← List.take_add, Nat.sub_add_cancel hk]
  have hgot : got.take (got.length - k) = pre ++ p.run.take (p.rpos - k) := by
    rw [← hpre, hsplit, ← List.append_assoc]
    refine List.take_left' ?_
    simp only [List.length_append, List.length_take, List.length_drop]
    omega
  refine ⟨?_, ?_, h.slot, (Nat.sub_le _ _).trans hpos, h.cap, h.undressed⟩
  · rw [← h.whole, Port.toCome, Port.toCome, hback, hgot]
    simp only [Port.pushback, hslot, if_pos, List.nil_append]
    have hdrop : p.run.drop (p.rpos - k) = (p.run.drop (p.rpos - k)).take k ++ p.run.drop p.rpos := by
      rw [← Nat.sub_add_cancel hk, Nat.add_sub_cancel, ← List.drop_drop, List.take_append_drop]
    rw [hdrop, ← hpre, hsplit]
    simp only [List.append_assoc]
  · simp only [Port.pushback, hslot, if_pos, List.append_nil]
    exact ⟨pre, hgot.symm⟩

/-- A new run is read where the last one is spent, and its first byte delivered. -/
theorem landed (h : Kept bytes p got) (hslot : p.ungetcBuf = EOF) (hspent : p.run.length ≤ p.rpos)
    (hrun : p.hasRun = true) (hdressed : p.rbuf ≠ none) {c : UInt8} {run : List UInt8} {dev' : Device}
    (hdev : p.dev.flatten = c :: run ++ dev'.flatten) :
    Kept bytes { p with dev := dev', run := c :: run, rpos := 1 } (got ++ [c]) := by
  have hback := pushback_empty hslot
  refine ⟨?_, ?_, h.slot, Nat.succ_le_succ (Nat.zero_le _), h.cap, ?_⟩
  · rw [← h.whole, Port.toCome, Port.toCome, hback, List.drop_of_length_le hspent, hdev]
    simp [Port.pushback, hslot]
  · simp only [Port.pushback, hslot, if_pos, List.append_nil]
    exact List.suffix_append got [c]
  · rintro (hnone | hnone)
    · rw [show p.hasRun = false from hnone] at hrun
      cases hrun
    · exact absurd hnone hdressed

/-- Without a run the byte comes straight from the door. -/
theorem bare (h : Kept bytes p got) (hslot : p.ungetcBuf = EOF) (hrun : p.hasRun = false) {s : List UInt8}
    {dev' : Device} (hdev : p.dev.flatten = s ++ dev'.flatten) : Kept bytes { p with dev := dev' } (got ++ s) := by
  have hback := pushback_empty hslot
  have hnil := h.undressed (.inl hrun)
  refine ⟨?_, ?_, h.slot, h.pos, h.cap, h.undressed⟩
  · rw [← h.whole, Port.toCome, Port.toCome, hback, hnil, hdev]
    simp [Port.pushback, hslot]
  · rw [show p.run.take p.rpos = [] by rw [hnil, List.take_nil]]
    exact List.nil_suffix

/-- The run let go of, with nothing in it to come. -/
theorem reset (h : Kept bytes p got) (hspent : p.run.length ≤ p.rpos) {rbuf : Option ℕ}
    (hcap : ∀ cap, rbuf = some cap → 0 < cap) : Kept bytes { p with rbuf := rbuf, run := [], rpos := 0 } got := by
  refine ⟨?_, List.nil_suffix, h.slot, le_rfl, hcap, fun _ => rfl⟩
  rw [← h.whole, Port.toCome, Port.toCome, List.drop_of_length_le hspent]
  rfl

theorem dressed (h : Kept bytes p got) {cap : ℕ} (hd : p.dress room = some (cap, p')) :
    Kept bytes p' got ∧ 0 < cap ∧ p'.rbuf = some cap ∧ p'.lane = p.lane ∧ p'.ungetcBuf = p.ungetcBuf ∧
      (p.run.length ≤ p.rpos → p'.run.length ≤ p'.rpos) := by
  rw [Port.dress] at hd
  split at hd
  next c hc =>
    obtain ⟨rfl, rfl⟩ := Prod.mk.inj (Option.some.inj hd)
    exact ⟨h, h.cap c hc, hc, rfl, rfl, id⟩
  next hnone =>
    split_ifs at hd
    obtain ⟨rfl, rfl⟩ := Prod.mk.inj (Option.some.inj hd)
    have hspent : p.run.length ≤ p.rpos := by
      rw [h.undressed (.inr hnone)]
      exact Nat.zero_le _
    exact ⟨h.reset hspent (by decide), by decide, rfl, rfl, rfl, fun _ => le_rfl⟩

end Kept

/-! ## Operations -/

/-- What a see does: it delivers the next byte, ends where nothing is to come, or has to wait with
all of it to come. -/
inductive Sees (stream : List UInt8) (got : List UInt8) (toCome : List UInt8) : ℤ × Port → Prop where
  | byte {p : Port} (b : UInt8) (h : Kept stream p (got ++ [b])) : Sees stream got toCome (b.toNat, p)
  | ended {p : Port} (h : Kept stream p got) (hend : toCome = []) : Sees stream got toCome (EOF, p)
  | blocked {p : Port} (h : Kept stream p got) (hsame : p.toCome = toCome) :
      Sees stream got toCome (IoWouldBlock, p)

namespace Kept

variable {bytes : List UInt8}

theorem ioRefill (h : Kept bytes p got) (hslot : p.ungetcBuf = EOF) (hspent : p.run.length ≤ p.rpos)
    {r : ℤ × Port} (hr : p.ioRefill room = some r) : Sees bytes got p.toCome r := by
  have hcome : p.toCome = p.dev.flatten := by
    rw [Port.toCome, pushback_empty hslot, List.drop_of_length_le hspent]
    rfl
  rw [Port.ioRefill] at hr
  split_ifs at hr with hrun
  · split at hr
    next => cases hr
    next cap p₁ hd =>
      obtain ⟨h₁, hcap, hbuf, hlane, hslot₁, hspent₁⟩ := h.dressed hd
      have hspent₁ := hspent₁ hspent
      have hrun₁ : p₁.hasRun = true := by rwa [Port.hasRun, hlane]
      have hcome₁ : p₁.toCome = p.toCome := List.append_cancel_left (h₁.whole.trans h.whole.symm)
      have hflat₁ : p₁.toCome = p₁.dev.flatten := by
        rw [Port.toCome, pushback_empty (hslot₁.trans hslot), List.drop_of_length_le hspent₁]
        rfl
      split at hr
      next gulp dev' hread =>
        obtain rfl := Option.some.inj hr
        cases gulp with
        | landed s =>
            obtain ⟨hflat, hne, -⟩ := readn_landed hread
            cases s with
            | nil => exact absurd rfl (hne hcap)
            | cons c s =>
                exact .byte c (h₁.landed (hslot₁.trans hslot) hspent₁ hrun₁ (by rw [hbuf]; exact nofun) hflat)
        | busy =>
            have hdev := (readn_busy hread).1
            refine .blocked (h₁.look hdev) ?_
            rw [← hcome₁, Port.toCome, Port.toCome, hdev]
            rfl
        | gone =>
            obtain ⟨hnil, rfl⟩ := readn_gone hread
            exact .ended (h₁.look (by rw [hnil])) (by rw [← hcome₁, hflat₁, hnil]; rfl)
  · have hrun : p.hasRun = false := by simpa using hrun
    split at hr
    next s dev' hd =>
      obtain rfl := Option.some.inj hr
      obtain ⟨hflat, hne, hlen⟩ := readn_landed hd
      cases s with
      | nil => exact absurd rfl (hne Nat.one_pos)
      | cons c s =>
          obtain rfl : s = [] := by
            have hone : athand 1 p.dev ≤ 1 := by
              cases p.dev with
              | nil => exact Nat.zero_le 1
              | cons frag rest => exact Nat.min_le_right _ _
            rw [← hlen, List.length_cons] at hone
            exact List.eq_nil_of_length_eq_zero (by omega)
          exact .byte c (h.bare hslot hrun hflat)
    next dev' hd =>
      obtain rfl := Option.some.inj hr
      have hdev := (readn_busy hd).1
      refine .blocked (h.look hdev) ?_
      rw [Port.toCome, Port.toCome, hdev]
      rfl
    next dev' hd =>
      obtain rfl := Option.some.inj hr
      obtain ⟨hnil, rfl⟩ := readn_gone hd
      exact .ended (h.look (by rw [hnil])) (by rw [hcome, hnil]; rfl)

theorem zgetc (h : Kept bytes p got) {r : ℤ × Port} (hr : p.zgetc room = some r) : Sees bytes got p.toCome r := by
  rw [Port.zgetc] at hr
  split_ifs at hr with hfull hpend
  · obtain rfl := Option.some.inj hr
    obtain ⟨b, hb⟩ := h.slot.resolve_left hfull
    rw [hb]
    exact .byte b (h.unslot hb)
  · obtain rfl := Option.some.inj hr
    rw [h.pending_iff] at hpend
    have hforth := h.forth (not_not.mp hfull) (k := 1) hpend
    have hone : (p.run.drop p.rpos).take 1 = [p.run.getD p.rpos 0] := by
      rw [List.drop_eq_getElem_cons hpend, List.getD_eq_getElem _ _ hpend]
      rfl
    rw [hone] at hforth
    exact .byte _ hforth
  · rw [h.pending_iff, Nat.not_lt] at hpend
    exact h.ioRefill (not_not.mp hfull) hpend hr

/-- What an operation leaves: the port in order, its waiting without loss, and its end at the end of
the stream. -/
structure Goes (stream : List UInt8) (p : Port) (got : List UInt8) (op : Op) : Prop where
  kept : Kept stream (p.step op).1 (p.deliver got op (p.step op).2)
  blocked : (p.step op).2 = .parked → (p.step op).1.toCome = p.toCome
  ended : ∀ room, op = .see room → (p.step op).2 = .charm EOF → got = stream

theorem see (h : Kept bytes p got) (room : Bool) : Goes bytes p got (.see room) := by
  have hr := Port.lvmFgetc.eq_1 p room
  have hstep : p.step (.see room) = p.lvmFgetc room := rfl
  split at hr
  next =>
    rw [← hstep] at hr
    refine ⟨?_, ?_, ?_⟩
    · rw [hr]
      exact h
    · rw [hr]
      exact nofun
    · rw [hr]
      exact nofun
  next c p₁ hz =>
    rw [← hstep] at hr
    have hsees := h.zgetc hz
    cases hsees with
    | byte b h₁ =>
        rw [if_neg (byte_ne b (by decide))] at hr
        refine ⟨?_, ?_, fun room' _ => ?_⟩
        · rw [hr, Port.deliver, if_neg (byte_ne b (by decide)), byte_ofNat]
          exact h₁
        · rw [hr]
          exact nofun
        · rw [hr]
          exact fun hend => absurd (Answer.charm.inj hend) (byte_ne b (by decide))
    | ended h₁ hend =>
        rw [if_neg (by decide)] at hr
        refine ⟨?_, ?_, fun room' _ _ => ?_⟩
        · rw [hr, Port.deliver, if_pos rfl]
          exact h₁
        · rw [hr]
          exact nofun
        · rw [← h.whole, hend, List.append_nil]
    | blocked h₁ hsame =>
        rw [if_pos rfl] at hr
        refine ⟨?_, ?_, fun room' _ => ?_⟩
        · rw [hr]
          exact h₁
        · rw [hr]
          exact fun _ => hsame
        · rw [hr]
          exact nofun

/-- An operation that is not a see, and never waits. -/
theorem goes {op : Op} (hop : ∀ room, op ≠ .see room) (hparks : (p.step op).2 ≠ .parked)
    (h : Kept bytes (p.step op).1 (p.deliver got op (p.step op).2)) : Goes bytes p got op :=
  ⟨h, fun hp => absurd hp hparks, fun room hsee => absurd hsee (hop room)⟩

theorem unsee (h : Kept bytes p got) {c : ℤ} (hallow : oneBack p got (.unsee c)) : Goes bytes p got (.unsee c) := by
  obtain ⟨hslot, rfl | ⟨b, hlast, rfl⟩⟩ := hallow
  · refine goes nofun nofun ?_
    have hsame : (p.step (.unsee EOF)).1 = p := by
      change { p with ungetcBuf := EOF.bmod (2 ^ 32) } = p
      rw [← hslot, show p.ungetcBuf.bmod (2 ^ 32) = p.ungetcBuf by rw [hslot]; decide]
    rw [hsame]
    exact h
  · refine goes nofun nofun ?_
    obtain ⟨rest, rfl⟩ : ∃ rest, got = rest ++ [b] := ⟨_, (List.dropLast_append_getLast? b hlast).symm⟩
    have hback := pushback_empty hslot
    have hfull : (p.step (.unsee b.toNat)).1 = { p with ungetcBuf := (b.toNat : ℤ) } := by
      change { p with ungetcBuf := (b.toNat : ℤ).bmod (2 ^ 32) } = _
      rw [byte_bmod]
    have hdeliver : p.deliver (rest ++ [b]) (.unsee b.toNat) (p.step (.unsee b.toNat)).2 = rest := by
      rw [Port.deliver, if_neg (byte_ne b (by decide)), List.dropLast_concat]
    have hpush : Port.pushback { p with ungetcBuf := (b.toNat : ℤ) } = [b] := pushback_full rfl
    have hwhole := h.whole
    have hbehind := h.behind
    rw [Port.toCome, hback, List.nil_append, List.append_assoc] at hwhole
    rw [hback, List.append_nil] at hbehind
    rw [hfull, hdeliver]
    exact ⟨by rw [Port.toCome, hpush]; exact hwhole, by rw [hpush]; exact hbehind, .inr ⟨b, rfl⟩, h.pos, h.cap,
      h.undressed⟩

/-- The slot emptied at the head of a chug. -/
theorem unpushed (h : Kept bytes p got) : Kept bytes { p with ungetcBuf := EOF } (got ++ p.pushback) := by
  rcases h.slot with hslot | ⟨b, hb⟩
  · have hsame : { p with ungetcBuf := EOF } = p := by rw [← hslot]
    rw [hsame, pushback_empty hslot, List.append_nil]
    exact h
  · rw [pushback_full hb]
    exact h.unslot hb

theorem readDrain (h : Kept bytes p got) (hslot : p.ungetcBuf = EOF) (n : ℕ) :
    Kept bytes (p.readDrain n).2 (got ++ (p.readDrain n).1) := by
  have hpos := h.pos
  rw [Port.readDrain]
  by_cases hpend : (!p.rpending) = true
  · rw [if_pos hpend, List.append_nil]
    exact h
  · rw [if_neg hpend]
    refine h.forth hslot ?_
    split_ifs
    · omega
    · omega

theorem chugRest (h : Kept bytes p got) (hslot : p.ungetcBuf = EOF) (m : ℕ) :
    Kept bytes (p.chugRest m).2 (got ++ (p.chugRest m).1) := by
  rw [Port.chugRest]
  split_ifs with hzero hrun
  · rw [List.append_nil]
    exact h
  · exact h.readDrain hslot m
  · have hrun : p.hasRun = false := by simpa using hrun
    split
    next s dev' hd => exact h.bare hslot hrun (readn_landed hd).1
    next gulp dev' hnot hd =>
      rw [List.append_nil]
      cases gulp with
      | landed s => exact absurd rfl (hnot s)
      | busy => exact h.look (readn_busy hd).1
      | gone =>
          obtain ⟨hnil, rfl⟩ := readn_gone hd
          exact h.look (by rw [hnil])

theorem chug (h : Kept bytes p got) (room : Bool) : Goes bytes p got (.chug room) := by
  cases room with
  | false => exact goes nofun nofun h
  | true =>
      refine goes nofun nofun ?_
      have hrest := h.unpushed.chugRest rfl p.atHand
      rw [List.append_assoc] at hrest
      exact hrest

/-- The position moved back, moved forth, or left. -/
theorem ioUnread (h : Kept bytes p got) (hslot : p.ungetcBuf = EOF) (n : ℤ) :
    Kept bytes (p.ioUnread n).2 (if 0 ≤ n then got.take (got.length - (p.ioUnread n).1)
      else got ++ (p.run.drop p.rpos).take (p.ioUnread n).1) := by
  have hpos := h.pos
  rw [Port.ioUnread]
  by_cases hbare : (!p.hasRun || p.rbuf.isNone) = true
  · rw [if_pos hbare]
    split_ifs
    · rw [Nat.sub_zero, List.take_length]
      exact h
    · rw [List.take_zero, List.append_nil]
      exact h
  · rw [if_neg hbare]
    by_cases hsign : 0 ≤ n
    · rw [if_pos hsign, if_pos hsign]
      refine h.back hslot ?_
      split_ifs
      · omega
      · omega
    · rw [if_neg hsign, if_neg hsign]
      refine h.forth hslot ?_
      split_ifs
      all_goals omega

theorem unchug (h : Kept bytes p got) {n : ℤ} (hallow : oneBack p got (.unchug n)) : Goes bytes p got (.unchug n) := by
  have hslot : p.ungetcBuf = EOF := hallow
  have hr := Port.lvmUnchug.eq_1 p n
  have hstep : p.step (.unchug n) = p.lvmUnchug n := rfl
  rw [← hstep] at hr
  split_ifs at hr with hzero
  · refine goes nofun (by rw [hr]; exact nofun) ?_
    rw [hr]
    exact h.ioUnread hslot n
  · have hn : n = 0 := not_not.mp hzero
    refine goes nofun (by rw [hr]; exact nofun) ?_
    rw [hr, Port.deliver, if_pos (Int.le_of_eq hn.symm), show got.length - (0 : ℤ).toNat = got.length from rfl,
      List.take_length]
    exact h

theorem snug (h : Kept bytes p got) (n : ℤ) (room : Bool) : Goes bytes p got (.snug n room) := by
  have hr := Port.ioSnug.eq_1 p n room
  have hstep : p.step (.snug n room) = p.ioSnug n room := rfl
  rw [← hstep] at hr
  split_ifs at hr with hbusy hone hroom
  · refine goes nofun (by rw [hr]; exact nofun) ?_
    rw [hr]
    exact h
  all_goals
    have hspent : p.run.length ≤ p.rpos := by
      rw [Bool.or_eq_true, not_or, h.pending_iff, Nat.not_lt] at hbusy
      exact hbusy.2
  · refine goes nofun (by rw [hr]; exact nofun) ?_
    rw [hr]
    exact h.reset hspent nofun
  · refine goes nofun (by rw [hr]; exact nofun) ?_
    rw [hr]
    exact h
  · refine goes nofun (by rw [hr]; exact nofun) ?_
    rw [hr]
    exact h.reset hspent fun cap hcap => Option.some.inj hcap ▸ Nat.one_pos

theorem await (h : Kept bytes p got) (fd ready : Bool) : Goes bytes p got (.await fd ready) := by
  have hr := Port.lvmAwait.eq_1 p fd ready
  have hstep : p.step (.await fd ready) = p.lvmAwait fd ready := rfl
  rw [← hstep] at hr
  split_ifs at hr
  · refine ⟨?_, ?_, nofun⟩
    · rw [hr]
      exact h
    · rw [hr]
      exact fun _ => rfl
  · refine goes nofun (by rw [hr]; exact nofun) ?_
    rw [hr]
    exact h

/-- Every operation that is allowed keeps the port in order. -/
theorem step (h : Kept bytes p got) {op : Op} (hallow : oneBack p got op) : Goes bytes p got op := by
  cases op with
  | see room => exact h.see room
  | unsee c => exact h.unsee hallow
  | chug room => exact h.chug room
  | unchug n => exact h.unchug hallow
  | snug n room => exact h.snug n room
  | inhand => exact goes nofun nofun h
  | await fd ready => exact h.await fd ready

end Kept

/-! ## Runs -/

theorem Reached.kept (h : Reached oneBack lane dev p got) : Kept dev.flatten p got := by
  induction h with
  | start => exact kept_ioAlloc lane dev
  | step _ op hop ih => exact (ih.step hop).kept

/-- The bytes delivered, less those pushed back, are the first of the stream; the end is reported
after the last of them; and an operation that waits leaves all that is to come to its re-entry. -/
structure InOrder (dev : Device) (p : Port) (got : List UInt8) : Prop where
  front : got <+: dev.flatten
  ended : ∀ room, (p.step (.see room)).2 = .charm EOF → got = dev.flatten
  blocked : ∀ op, oneBack p got op → (p.step op).2 = .parked →
    p.deliver got op .parked = got ∧ (p.step op).1.toCome = p.toCome
  whole : got ++ p.toCome = dev.flatten

/-- Where a push-back gives back the byte delivered last, and neither a push-back nor an unchug finds
one pushed back, every run delivers the stream in order. -/
theorem in_order_of_oneBack (h : Reached oneBack lane dev p got) : InOrder dev p got where
  front := ⟨p.toCome, h.kept.whole⟩
  ended room hend := (h.kept.step (show oneBack p got (.see room) from trivial)).ended room rfl hend
  blocked op hop hparked := by
    refine ⟨?_, (h.kept.step hop).blocked hparked⟩
    cases op with
    | unsee c => cases hparked
    | see room => rfl
    | chug room => rfl
    | unchug n => rfl
    | snug n room => rfl
    | inhand => rfl
    | await fd ready => rfl
  whole := h.kept.whole

/-- The port that a list of operations leaves, with what it has delivered. -/
def run (p : Port) (got : List UInt8) : List Op → Port × List UInt8
  | [] => (p, got)
  | op :: ops => run (p.step op).1 (p.deliver got op (p.step op).2) ops

/-- Three bytes in two fragments, a look at nothing between them: one is read, a second is waited
for, read, and pushed back, and a chug takes it up with the rest. -/
theorem fragments_in_order :
    InOrder [[97], [], [98, 99]]
      (run (ioAlloc .run [[97], [], [98, 99]]) [] [.see true, .see true, .see true, .unsee 98, .chug true]).1
      [97, 98, 99] := by
  have hreach : Reached oneBack .run [[97], [], [98, 99]] _ _ :=
    .step (.step (.step (.step (.step .start (.see true) trivial) (.see true) trivial) (.see true) trivial)
      (.unsee 98) ⟨rfl, .inr ⟨98, rfl, rfl⟩⟩) (.chug true) trivial
  exact in_order_of_oneBack hreach

/-- A push-back gives back the byte delivered last. -/
def lastBack (_ : Port) (got : List UInt8) : Op → Prop
  | .unsee c => c = EOF ∨ ∃ b, got.getLast? = some b ∧ c = b.toNat
  | _ => True

/-- Of two bytes pushed back one is lost, and a position moved back behind a byte pushed back brings
that byte twice. -/
theorem not_in_order :
    (¬∀ lane dev p got, Reached lastBack lane dev p got → got <+: dev.flatten) ∧
      (run (ioAlloc .run [[97, 98, 99]]) [] [.see true, .see true, .unsee 98, .unsee 97, .see true, .see true]).2 =
        [97, 99] ∧
      (run (ioAlloc .run [[97, 98, 99]]) []
        [.see true, .see true, .unsee 98, .unchug 1, .see true, .see true]).2 = [98, 98] := by
  refine ⟨fun hall => ?_, by decide, by decide⟩
  have hreach : Reached lastBack .run [[97, 98, 99]] _ [97, 99] :=
    .step (.step (.step (.step (.step (.step .start (.see true) trivial) (.see true) trivial) (.unsee 98)
      (.inr ⟨98, rfl, rfl⟩)) (.unsee 97) (.inr ⟨97, rfl, rfl⟩)) (.see true) trivial) (.see true) trivial
  exact absurd (hall _ _ _ _ hreach) (by decide)

end LoveRuntime.Inports
