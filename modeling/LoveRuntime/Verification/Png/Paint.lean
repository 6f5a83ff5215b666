import LoveRuntime.Model.Quay.Png
import LoveRuntime.Verification.Png.Unfilter

/-! A pixel's colour out of its row. -/

namespace LoveRuntime.Png

open Checked

variable {hd : Head} {m : Buf} {row : ℕ → UInt8} {rb d : ℕ}

/-- What the chunks leave a head that has a size. -/
structure Head.Sound (hd : Head) : Prop where
  depths : Depths hd.ctype hd.depth
  pal : hd.pal.size = 256
  alpha : hd.alpha.size = 256
  np : hd.np ≤ 256

/-- Sample `k` of a row. -/
def sample (row : ℕ → UInt8) (k depth : ℕ) : ℕ :=
  if depth = 8 then (row k).toNat
  else if depth = 16 then (row (2 * k)).toNat <<< 8 ||| (row (2 * k + 1)).toNat
  else (row ((k * depth) >>> 3)).toNat >>> (8 - depth - k * depth % 8) % 2 ^ depth

def alphaOf (depth : ℕ) (v : ℕ → ℕ) (k : ℕ) (there clear : Bool) : ℕ :=
  if there then qp8 depth (v k) else if clear then 0 else 255

/-- The word of the pixel `x` of a row. -/
def colour (hd : Head) (row : ℕ → UInt8) (x : ℕ) : ℕ :=
  if hd.ctype = 3 then
    let i := sample row x hd.depth
    word (hd.alpha i).toNat (hd.pal i >>> 16) (hd.pal i >>> 8 % 256) (hd.pal i % 256)
  else
    let v := fun k => sample row (x * hd.ch + k) hd.depth
    if hd.ctype = 0 ∨ hd.ctype = 4 then
      word (alphaOf hd.depth v 1 (hd.ctype = 4) (hd.trn ∧ v 0 = hd.tg)) (qp8 hd.depth (v 0))
        (qp8 hd.depth (v 0)) (qp8 hd.depth (v 0))
    else
      word (alphaOf hd.depth v 3 (hd.ctype = 6) (hd.trn ∧ v 0 = hd.tr ∧ v 1 = hd.tgn ∧ v 2 = hd.tb))
        (qp8 hd.depth (v 0)) (qp8 hd.depth (v 1)) (qp8 hd.depth (v 2))

theorem Head.Sound.depth (h : hd.Sound) :
    hd.depth = 1 ∨ hd.depth = 2 ∨ hd.depth = 4 ∨ hd.depth = 8 ∨ hd.depth = 16 := by
  have := h.depths
  unfold Depths at this
  omega

theorem Head.bpp_pos (hd : Head) : 0 < hd.bpp := by
  unfold Head.bpp
  split
  case isTrue => exact Nat.one_pos
  case isFalse hb => exact Nat.div_pos (Nat.not_lt.mp hb) (by decide)

theorem Head.rb_eq (hd : Head) (p : ℕ) : hd.rb p = (hd.pw p * hd.ch * hd.depth + 7) / 8 := by
  rw [Head.rb, Head.bits, Nat.mul_comm hd.depth, Nat.mul_assoc]

theorem sample_index_lt {pw ch x k : ℕ} (hx : x < pw) (hk : k < ch) : x * ch + k < pw * ch :=
  calc x * ch + k < x * ch + ch := Nat.add_lt_add_left hk _
    _ = (x + 1) * ch := (Nat.succ_mul x ch).symm
    _ ≤ pw * ch := Nat.mul_le_mul_right _ hx

/-- A sample of a row of `n` of them. -/
theorem qpSample_row {k n depth : ℕ}
    (hdepth : depth = 1 ∨ depth = 2 ∨ depth = 4 ∨ depth = 8 ∨ depth = 16) (hk : k < n)
    (hrb : rb = (n * depth + 7) / 8) (hd : d + rb ≤ m.size) (hrow : ∀ i < rb, m (d + i) = row i) :
    qpSample m d k depth = .ok (sample row k depth) := by
  unfold qpSample sample
  by_cases h8 : depth = 8
  case pos =>
      subst h8
      have hi : k < rb := by omega
      rw [if_pos rfl, if_pos rfl, rd_of_lt (by omega), hrow k hi]
      rfl
  case neg =>
      rw [if_neg h8, if_neg h8]
      by_cases h16 : depth = 16
      case pos =>
          subst h16
          have hi : 2 * k + 1 < rb := by omega
          rw [if_pos rfl, if_pos rfl, rd_of_lt (by omega), rd_of_lt (by omega), hrow (2 * k) (by omega),
            hrow (2 * k + 1) hi]
          rfl
      case neg =>
          have hi : (k * depth) >>> 3 < rb := by
            rw [Nat.shiftRight_eq_div_pow]
            rcases hdepth with rfl | rfl | rfl | rfl | rfl <;> omega
          rw [if_neg h16, if_neg h16]
          simp only
          rw [rd_of_lt (by omega), hrow _ hi]
          rfl

/-- The samples of a pixel, one a channel. -/
theorem samples_meets {p x : ℕ} (hs : hd.Sound) (hx : x < hd.pw p) (hd' : d + hd.rb p ≤ m.size)
    (hrow : ∀ i < hd.rb p, m (d + i) = row i) :
    Meets ((List.range hd.ch).foldlM (fun v k => do
        let s ← qpSample m d (x * hd.ch + k) hd.depth
        wr v k s) (Cells.fill 4 0))
      fun v => v.size = 4 ∧ ∀ k < hd.ch, v k = sample row (x * hd.ch + k) hd.depth := by
  have hch : hd.ch ≤ 4 := by
    unfold Head.ch
    split_ifs <;> omega
  apply Meets.range fun n (v : Cells ℕ) =>
    v.size = 4 ∧ ∀ k < n, v k = sample row (x * hd.ch + k) hd.depth
  case init => exact ⟨rfl, fun k hk => absurd hk k.not_lt_zero⟩
  case step =>
      rintro k hk v ⟨hsize, hv⟩
      rw [qpSample_row hs.depth (sample_index_lt hx hk) (hd.rb_eq p) hd' hrow]
      simp only [bind, Except.bind]
      rw [wr_of_lt (by omega)]
      refine Meets.value ⟨hsize, fun j hj => ?_⟩
      rcases Nat.lt_succ_iff_lt_or_eq.mp hj with hj | rfl
      · rw [Cells.set_of_ne _ _ (by omega), hv j hj]
      · rw [Cells.set_self]

theorem rdAlpha_eq {depth k : ℕ} {v : Cells ℕ} {w : ℕ → ℕ} {there clear : Bool} (hk : k < v.size)
    (hw : there = true → v k = w k) :
    rdAlpha depth v k there clear = .ok (alphaOf depth w k there clear) := by
  cases there with
  | false => rfl
  | true =>
      have : v k = w k := hw rfl
      simp only [rdAlpha, alphaOf, if_true, rd_of_lt hk, this]
      rfl

theorem pixel_meets {p x : ℕ} (hs : hd.Sound) (hx : x < hd.pw p) (hd' : d + hd.rb p ≤ m.size)
    (hrow : ∀ i < hd.rb p, m (d + i) = row i) : Meets (pixel hd m d x) (· = colour hd row x) := by
  have hdep := hs.depths
  unfold Depths at hdep
  unfold pixel colour
  by_cases h3 : hd.ctype = 3
  case pos =>
      have hch : hd.ch = 1 := if_pos (.inr h3)
      have hk : x < hd.pw p * hd.ch := by rwa [hch, Nat.mul_one]
      rw [if_pos h3, if_pos h3, qpSample_row hs.depth hk (hd.rb_eq p) hd' hrow]
      simp only [bind, Except.bind]
      split
      case isTrue => exact Meets.refused
      case isFalse hi =>
          have hnp := hs.np
          rw [rd_of_lt (by rw [hs.pal]; omega), rd_of_lt (by rw [hs.alpha]; omega)]
          exact Meets.value rfl
  case neg =>
      rw [if_neg h3, if_neg h3]
      apply (samples_meets hs hx hd' hrow).bind
      rintro v ⟨hsize, hv⟩
      have hch : 0 < hd.ch := by
        unfold Head.ch
        split_ifs <;> omega
      rw [rd_of_lt (by omega), hv 0 hch]
      simp only [bind, Except.bind]
      by_cases h04 : hd.ctype = 0 ∨ hd.ctype = 4
      case pos =>
          have h1 : decide (hd.ctype = 4) = true → v 1 = sample row (x * hd.ch + 1) hd.depth := by
            intro h
            apply hv 1
            have h4 : hd.ctype = 4 := of_decide_eq_true h
            simp [Head.ch, h4]
          rw [if_pos h04, if_pos h04, rdAlpha_eq (w := fun k => sample row (x * hd.ch + k) hd.depth)
            (by omega) h1]
          exact Meets.value rfl
      case neg =>
          have h26 : 2 < hd.ch ∧ (hd.ctype = 6 → 3 < hd.ch) := by
            unfold Head.ch
            split_ifs <;> omega
          have h3' : decide (hd.ctype = 6) = true → v 3 = sample row (x * hd.ch + 3) hd.depth :=
            fun h => hv 3 (h26.2 (of_decide_eq_true h))
          rw [if_neg h04, if_neg h04, rd_of_lt (by omega), rd_of_lt (by omega), hv 1 (by omega), hv 2 h26.1]
          simp only
          rw [rdAlpha_eq (w := fun k => sample row (x * hd.ch + k) hd.depth) (by omega) h3']
          exact Meets.value rfl

/-- The word `v` stands as the pixel `q`. -/
def Shows (m : Buf) (q v : ℕ) : Prop := ∀ i < 4, m (4 * q + i) = UInt8.ofNat (v >>> (8 * i))

/-- The word `v` put as the pixel `q`. -/
structure Put (q v : ℕ) (m m' : Buf) : Prop where
  size : m'.size = m.size
  shows : Shows m' q v
  rest : ∀ j, j < 4 * q ∨ 4 * q + 4 ≤ j → m' j = m j

theorem put32_meets {q v : ℕ} (hq : 4 * q + 4 ≤ m.size) : Meets (put32 m q v) (Put q v m) := by
  apply Meets.mono (P := fun m' => m'.size = m.size ∧
    (∀ i < 4, m' (4 * q + i) = UInt8.ofNat (v >>> (8 * i))) ∧
      ∀ j, j < 4 * q ∨ 4 * q + 4 ≤ j → m' j = m j)
  case hPQ => exact fun m' h => ⟨h.1, h.2.1, h.2.2⟩
  apply Meets.range fun k (m' : Buf) => m'.size = m.size ∧
    (∀ i < k, m' (4 * q + i) = UInt8.ofNat (v >>> (8 * i))) ∧
      ∀ j, j < 4 * q ∨ 4 * q + k ≤ j → m' j = m j
  case init => exact ⟨rfl, fun i hi => absurd hi i.not_lt_zero, fun _ _ => rfl⟩
  case step =>
      rintro k hk m' ⟨hsize, hdone, hrest⟩
      rw [wr_of_lt (by omega)]
      refine Meets.value ⟨hsize, fun i hi => ?_, fun j hj => ?_⟩
      · rcases Nat.lt_succ_iff_lt_or_eq.mp hi with hi | rfl
        · rw [Cells.set_of_ne _ _ (by omega), hdone i hi]
        · rw [Cells.set_self]
      · rw [Cells.set_of_ne _ _ (by omega)]
        exact hrest j (by omega)

theorem Put.shows_of_ne {q q' v v' : ℕ} {m m' : Buf} (h : Put q v m m') (hne : q' ≠ q)
    (hs : Shows m q' v') : Shows m' q' v' := by
  intro i hi
  rw [h.rest _ (by omega)]
  exact hs i hi

theorem Shows.congr {q v b : ℕ} {m m' : Buf} (h : Shows m q v) (hq : 4 * q + 4 ≤ b)
    (hm : ∀ j < b, m' j = m j) : Shows m' q v := by
  intro i hi
  rw [hm _ (by omega)]
  exact h i hi

end LoveRuntime.Png

/-! The paint: each pass unfiltered where it was inflated, and its pixels put below. -/

namespace LoveRuntime.Png

open Checked

variable {hd : Head}

/-- How far into the rows the pass `p` begins. -/
def Head.start (hd : Head) (p : ℕ) : ℕ := ((hd.passes.takeWhile (· ≠ p)).map hd.passSize).sum

/-- Row `y` of the pass `p` of what was inflated, unfiltered. -/
def Head.row (hd : Head) (out : ℕ → UInt8) (p y : ℕ) : ℕ → UInt8 :=
  recon (fun j => out (hd.start p + j)) (hd.rb p) hd.bpp y

theorem Head.fsz_eq (hd : Head) : hd.fsz = (hd.passes.map hd.passSize).sum := by
  have fold : ∀ (l : List ℕ) (n : ℕ), l.foldl (fun fsz p => fsz + hd.passSize p) n =
      n + (l.map hd.passSize).sum := by
    intro l
    induction l with
    | nil => exact fun n => rfl
    | cons p l ih =>
        intro n
        rw [List.foldl_cons, ih, List.map_cons, List.sum_cons, Nat.add_assoc]
  rw [Head.fsz, fold, Nat.zero_add]

theorem Head.start_eq {done rest : List ℕ} {p : ℕ} (h : hd.passes = done ++ p :: rest) :
    hd.start p = (done.map hd.passSize).sum := by
  have hnodup := hd.passes_nodup
  rw [h, List.nodup_append] at hnodup
  have hne : ∀ q ∈ done, (decide (q ≠ p)) = true := by
    intro q hq
    rw [decide_eq_true_eq]
    exact hnodup.2.2 q hq p List.mem_cons_self
  rw [Head.start, h, List.takeWhile_append_of_pos hne, List.takeWhile_cons, if_neg (by simp),
    List.append_nil]

theorem Head.start_add_le {done rest : List ℕ} {p : ℕ} (h : hd.passes = done ++ p :: rest) :
    hd.start p + hd.passSize p ≤ hd.fsz := by
  rw [hd.fsz_eq, hd.start_eq h, h, List.map_append, List.sum_append, List.map_cons, List.sum_cons]
  omega

/-- The pixels `l`, each in its colour, with what stands from `b` on as in `base`. -/
structure Painted (base : Buf) (b f : ℕ) (col : ℕ → ℕ) (l : List ℕ) (s : Paint) : Prop where
  size : s.mem.size = base.size
  above : ∀ j, b ≤ j → s.mem j = base j
  put : s.put = l
  shown : ∀ q ∈ l, Shows s.mem q (col q)
  place : s.f = f

section Rows

variable {base : Buf} {b f : ℕ} {col : ℕ → ℕ} {l : List ℕ} {s : Paint} {p : ℕ}

theorem Painted.pixel {q v : ℕ} {m : Buf} (h : Painted base b f col l s) (hq : 4 * q + 4 ≤ b)
    (hv : v = col q) (hm : Put q v s.mem m) :
    Painted base b f col (l ++ [q]) { s with mem := m, put := s.put ++ [q] } where
  size := hm.size.trans h.size
  above j hj := by rw [hm.rest j (.inr (by omega)), h.above j hj]
  put := by rw [h.put]
  shown := by
    intro q' hq'
    rw [List.mem_append, List.mem_singleton] at hq'
    by_cases heq : q' = q
    · rw [heq, ← hv]
      exact hm.shows
    · exact hm.shows_of_ne heq (h.shown q' (hq'.resolve_right heq))
  place := h.place

variable (hs : hd.Sound)

include hs

theorem paintRow_meets {d y : ℕ} {row : ℕ → UInt8} (h : Painted base b f col l s)
    (hb : b ≤ d) (hd' : d + hd.rb p ≤ base.size) (hrow : ∀ i < hd.rb p, base (d + i) = row i)
    (hcol : ∀ x < hd.pw p, 4 * hd.target p y x + 4 ≤ b ∧ col (hd.target p y x) = colour hd row x) :
    Meets (paintRow hd p d y s) (Painted base b f col (l ++ hd.rowTargets p y)) := by
  apply Meets.range fun k (s : Paint) =>
    Painted base b f col (l ++ (List.range k).map (hd.target p y)) s
  case init =>
      rw [List.range_zero, List.map_nil, List.append_nil]
      exact h
  case step =>
      intro x hx s hsx
      have hsize := hsx.size
      have hq := hcol x hx
      have hrow' : ∀ i < hd.rb p, s.mem (d + i) = row i := by
        intro i hi
        rw [hsx.above _ (by omega), hrow i hi]
      apply (pixel_meets hs hx (by omega) hrow').bind
      intro v hv
      apply (put32_meets (by omega)).bind
      intro m hm
      apply Meets.value
      rw [List.range_succ, List.map_append, ← List.append_assoc]
      exact hsx.pixel hq.1 (hv.trans hq.2.symm) hm

end Rows

section Passes

variable {m0 : Buf} {out : ℕ → UInt8} {f0 : ℕ} {col : ℕ → ℕ} {p : ℕ} {done rest : List ℕ} {s : Paint}

/-- The passes `done` painted, the rows of the others as they were inflated. -/
structure PassesDone (hd : Head) (m0 : Buf) (f0 : ℕ) (col : ℕ → ℕ) (done : List ℕ) (s : Paint) : Prop where
  size : s.mem.size = m0.size
  place : s.f = f0 + (done.map hd.passSize).sum
  ahead : ∀ j, s.f ≤ j → s.mem j = m0 j
  put : s.put = done.flatMap hd.passTargets
  shown : ∀ q ∈ s.put, Shows s.mem q (col q)

/-- The colour that each pixel is to have is that of its sample. -/
def Colours (hd : Head) (out : ℕ → UInt8) (col : ℕ → ℕ) : Prop :=
  ∀ p y x, hd.Spot p y x → col (hd.target p y x) = colour hd (hd.row out p y) x

theorem PassesDone.skip (h : PassesDone hd m0 f0 col done s) (hp : hd.pw p = 0 ∨ hd.ph p = 0) :
    PassesDone hd m0 f0 col (done ++ [p]) s := by
  have hsize : hd.passSize p = 0 := by
    rw [Head.passSize, if_neg]
    omega
  have htargets : hd.passTargets p = [] := by
    rw [List.eq_nil_iff_forall_not_mem]
    intro q hq
    obtain ⟨y, x, hy, hx, _⟩ := Head.mem_passTargets.mp hq
    omega
  refine ⟨h.size, ?_, h.ahead, ?_, h.shown⟩
  · rw [h.place, List.map_append, List.sum_append, List.map_singleton, List.sum_singleton, hsize,
      Nat.add_zero]
  · rw [h.put, List.flatMap_append, List.flatMap_singleton, htargets, List.append_nil]

variable (hs : hd.Sound) (hw : 0 < hd.w) (hh : 0 < hd.h)

include hs hw hh

theorem paintPass_meets (hcol : Colours hd out col) (hout : ∀ i < hd.fsz, m0 (f0 + i) = out i)
    (hf0 : hd.px ≤ f0) (hcap : f0 + hd.fsz ≤ m0.size) (hp : hd.passes = done ++ p :: rest)
    (h : PassesDone hd m0 f0 col done s) :
    Meets (paintPass hd s p) (PassesDone hd m0 f0 col (done ++ [p])) := by
  unfold paintPass
  split
  case isTrue hempty => exact Meets.value (h.skip hempty)
  case isFalse hsome =>
      have hstart := hd.start_eq hp
      have hfit := hd.start_add_le hp
      have hmem : p ∈ hd.passes := hp ▸ List.mem_append_right _ List.mem_cons_self
      have hpass : hd.passSize p = hd.ph p * (hd.rb p + 1) := by
        rw [Head.passSize, if_pos (by omega), Nat.add_comm 1]
        rfl
      have hplace := h.place
      have hsize := h.size
      have hlow : ∀ y x, hd.Spot p y x → 4 * hd.target p y x + 4 ≤ s.f := by
        intro y x hspot
        have := Head.target_lt hw hh hspot
        simp only [Head.px] at hf0
        omega
      apply (qpUnfilter_meets hd.bpp_pos (by omega)).bind
      intro m hm
      apply Meets.bind (P := Painted m s.f s.f col (done.flatMap hd.passTargets ++ hd.passTargets p))
      · apply Meets.range fun k (t : Paint) => Painted m s.f s.f col
          (done.flatMap hd.passTargets ++ (List.range k).flatMap (hd.rowTargets p)) t
        case init =>
            rw [List.range_zero, List.flatMap_nil, List.append_nil]
            refine ⟨rfl, fun _ _ => rfl, h.put, fun q hq => ?_, rfl⟩
            rw [← h.put] at hq
            obtain ⟨p', y, x, hspot, rfl⟩ : ∃ p' y x, hd.Spot p' y x ∧ hd.target p' y x = q := by
              rw [← Head.mem_targets, Head.targets, hp, List.flatMap_append]
              rw [h.put] at hq
              exact List.mem_append_left _ hq
            have hlt := Head.target_lt hw hh hspot
            simp only [Head.px] at hf0
            apply (h.shown _ hq).congr (b := s.f) (by omega)
            exact fun j hj => hm.rest j (.inl hj)
        case step =>
            intro y hy t ht
            rw [List.range_succ, List.flatMap_append, List.flatMap_singleton, ← List.append_assoc]
            have hrows : (y + 1) * (hd.rb p + 1) ≤ hd.ph p * (hd.rb p + 1) := Nat.mul_le_mul_right _ hy
            have hstep : (y + 1) * (hd.rb p + 1) = y * (hd.rb p + 1) + (hd.rb p + 1) := Nat.succ_mul _ _
            have hmsize := hm.size
            have htf : t.f = s.f := ht.place
            have hrow : ∀ i < hd.rb p, m (t.f + y * (hd.rb p + 1) + 1 + i) = hd.row out p y i := by
              intro i hi
              rw [htf, hm.done y hy i hi]
              have hraw : ∀ j < (y + 1) * (hd.rb p + 1), s.mem (s.f + j) = out (hd.start p + j) := by
                intro j hj
                rw [h.ahead _ (by omega), hplace, ← hstart, Nat.add_assoc]
                exact hout _ (by omega)
              exact recon_congr hraw i hi
            apply paintRow_meets hs ht (by omega) (by omega) hrow
            intro x hx
            have hspot : hd.Spot p y x := ⟨hmem, hy, hx⟩
            exact ⟨hlow y x hspot, hcol p y x hspot⟩
      · intro t ht
        apply Meets.value
        have htplace : t.f = s.f := ht.place
        refine ⟨ht.size.trans (hm.size.trans hsize), ?_, ?_, ?_, ?_⟩
        · rw [htplace, h.place, List.map_append, List.sum_append, List.map_singleton,
            List.sum_singleton, hpass, Nat.add_assoc]
        · intro j hj
          simp only [htplace] at hj
          rw [ht.above j (by omega), hm.rest j (.inr (by omega)), h.ahead j (by omega)]
        · rw [ht.put, List.flatMap_append, List.flatMap_singleton]
        · intro q hq
          exact ht.shown q (ht.put ▸ hq)

/-- All the passes. -/
theorem paint_meets (hcol : Colours hd out col) (hout : ∀ i < hd.fsz, m0 (f0 + i) = out i)
    (hf0 : hd.px ≤ f0) (hcap : f0 + hd.fsz ≤ m0.size) :
    Meets (hd.passes.foldlM (paintPass hd) ⟨m0, [], f0⟩) (PassesDone hd m0 f0 col hd.passes) := by
  apply Meets.foldlM (PassesDone hd m0 f0 col)
  case init => exact ⟨rfl, rfl, fun _ _ => rfl, rfl, fun q hq => absurd hq List.not_mem_nil⟩
  case step => exact fun done p rest hp s h => paintPass_meets hs hw hh hcol hout hf0 hcap hp h

omit hs hh in
/-- There is such a colour for every pixel: no two samples are of one. -/
theorem exists_colours (out : ℕ → UInt8) : ∃ col, Colours hd out col := by
  classical
  refine ⟨fun q => if h : ∃ p y x, hd.Spot p y x ∧ hd.target p y x = q then
    colour hd (hd.row out h.choose h.choose_spec.choose) h.choose_spec.choose_spec.choose else 0, ?_⟩
  intro p y x hspot
  have h : ∃ p' y' x', hd.Spot p' y' x' ∧ hd.target p' y' x' = hd.target p y x := ⟨p, y, x, hspot, rfl⟩
  have hspec := h.choose_spec.choose_spec.choose_spec
  obtain ⟨hp, hy, hx⟩ := Head.target_inj hw hspec.1 hspot hspec.2
  simp only [dif_pos h]
  rw [hx, hy, hp]

end Passes

end LoveRuntime.Png
