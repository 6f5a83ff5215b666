import LoveRuntime.Verification.Png.Paint
import Mathlib.Data.List.GetD

/-! The chunk loop: what it packs stays behind what it reads. -/

namespace LoveRuntime.Png

open Checked

variable {m : Buf} {n k : ℕ} {s s' : Walk} {hd : Head}

/-- The length of the chunk at `pos` of a file, and its type. -/
def lenAt (m : Buf) (pos : ℕ) : ℕ :=
  (m pos).toNat <<< 24 ||| (m (pos + 1)).toNat <<< 16 ||| (m (pos + 2)).toNat <<< 8 ||| (m (pos + 3)).toNat

def typeAt (m : Buf) (pos : ℕ) : List UInt8 := [m (pos + 4), m (pos + 5), m (pos + 6), m (pos + 7)]

/-- Past `k` chunks of a file: where, and the data of the IDAT ones. -/
def stream (m : Buf) : ℕ → ℕ × List UInt8
  | 0 => (8, [])
  | k + 1 =>
      let s := stream m k
      (s.1 + (12 + lenAt m s.1), s.2 ++
        if typeAt m s.1 = idat then (List.range (lenAt m s.1)).map fun i => m (s.1 + 8 + i) else [])

/-- The loop's state past `k` chunks. -/
inductive Reaches (n : ℕ) (m : Buf) : ℕ → Walk → Prop where
  | begin : Reaches n m 0 (Walk.begin m)
  | chunk {k : ℕ} {s s' : Walk} : Reaches n m k s → s.ended = false → chunk n s = .ok s' → Reaches n m (k + 1) s'

theorem le_stream (m : Buf) (k : ℕ) : 8 + 12 * k ≤ (stream m k).1 := by
  induction k with
  | zero => exact le_rfl
  | succ k ih =>
      simp only [stream]
      omega

/-! ### The head -/

/-- What every chunk keeps of the head. -/
structure Head.Fair (hd : Head) : Prop where
  pal : hd.pal.size = 256
  alpha : hd.alpha.size = 256
  np : hd.np ≤ 256
  sized : hd.w ≠ 0 → hd.h ≠ 0 ∧ Depths hd.ctype hd.depth

theorem Head.Fair.sound (h : hd.Fair) (hw : hd.w ≠ 0) : hd.Sound := ⟨(h.sized hw).2, h.pal, h.alpha, h.np⟩

theorem Head.blank_fair : Head.blank.Fair := ⟨rfl, rfl, by decide, fun h => absurd rfl h⟩

theorem qpBe32_eq {p : ℕ} (hp : p + 4 ≤ m.size) : qpBe32 m p = .ok (lenAt m p) := by
  rw [qpBe32, rd_of_lt (by omega), rd_of_lt (by omega), rd_of_lt (by omega), rd_of_lt (by omega)]
  rfl

theorem readType_eq {p : ℕ} (hp : p + 8 ≤ m.size) : readType m (p + 4) = .ok (typeAt m p) := by
  rw [readType, rd_of_lt (by omega), rd_of_lt (by omega), rd_of_lt (by omega), rd_of_lt (by omega)]
  rfl

theorem readIhdr_meets {d len : ℕ} (h : hd.Fair) (hd' : d + len ≤ m.size) :
    Meets (readIhdr m d len hd) fun hd' => hd'.Fair := by
  unfold readIhdr
  split
  case isTrue => exact Meets.refused
  case isFalse hlen =>
      have hlen' : len = 13 := by omega
      rw [qpBe32_eq (by omega), qpBe32_eq (by omega)]
      apply Meets.rd_bind (by omega)
      apply Meets.rd_bind (by omega)
      apply Meets.rd_bind (by omega)
      apply Meets.rd_bind (by omega)
      apply Meets.rd_bind (by omega)
      split
      case isTrue => exact Meets.refused
      case isFalse hsize =>
          split
          case isTrue => exact Meets.refused
          case isFalse hdepths =>
              apply Meets.value
              exact ⟨h.pal, h.alpha, h.np, fun _ => ⟨fun h0 => hsize (.inr (.inl h0)), not_not.mp hdepths⟩⟩

theorem readPlte_meets {d len : ℕ} (h : hd.Fair) (hd' : d + len ≤ m.size) :
    Meets (readPlte m d len hd) fun hd' => hd'.Fair := by
  unfold readPlte
  split
  case isTrue => exact Meets.refused
  case isFalse hlen =>
      apply Meets.bind (P := fun pal : Cells ℕ => pal.size = 256)
      · apply Meets.range fun _ (pal : Cells ℕ) => pal.size = 256
        case init => exact h.pal
        case step =>
            intro k hk pal hpal
            apply Meets.rd_bind (by omega)
            apply Meets.rd_bind (by omega)
            apply Meets.rd_bind (by omega)
            rw [wr_of_lt (by omega)]
            exact Meets.value hpal
      · intro pal hpal
        exact Meets.value ⟨hpal, h.alpha, by simp only; omega, h.sized⟩

theorem be16_eq {p : ℕ} (hp : p + 2 ≤ m.size) :
    be16 m p = .ok ((m p).toNat <<< 8 ||| (m (p + 1)).toNat) := by
  rw [be16, rd_of_lt (by omega), rd_of_lt (by omega)]
  rfl

theorem readTrns_meets {d len : ℕ} (h : hd.Fair) (hd' : d + len ≤ m.size) :
    Meets (readTrns m d len hd) fun hd' => hd'.Fair := by
  unfold readTrns
  split
  case isTrue =>
      apply Meets.bind (P := fun alpha : Buf => alpha.size = 256)
      · apply Meets.range fun _ (alpha : Buf) => alpha.size = 256
        case init => exact h.alpha
        case step =>
            intro k hk alpha halpha
            apply Meets.rd_bind (by omega)
            rw [wr_of_lt (by omega)]
            exact Meets.value halpha
      · intro alpha halpha
        exact Meets.value ⟨h.pal, halpha, h.np, h.sized⟩
  case isFalse =>
      split
      case isTrue hgrey =>
          rw [be16_eq (by omega)]
          exact Meets.value ⟨h.pal, h.alpha, h.np, h.sized⟩
      case isFalse =>
          split
          case isTrue hrgb =>
              rw [be16_eq (by omega), be16_eq (by omega), be16_eq (by omega)]
              exact Meets.value ⟨h.pal, h.alpha, h.np, h.sized⟩
          case isFalse => exact Meets.value ⟨h.pal, h.alpha, h.np, h.sized⟩

/-! ### The packed run -/

/-- `len` bytes moved from `d` down to `z`. -/
structure Moved (m : Buf) (d z len : ℕ) (m' : Buf) : Prop where
  size : m'.size = m.size
  moved : ∀ i < len, m' (z + i) = m (d + i)
  rest : ∀ j, j < z ∨ z + len ≤ j → m' j = m j

theorem Moved.refl (m : Buf) (d z : ℕ) : Moved m d z 0 m :=
  ⟨rfl, fun i hi => absurd hi i.not_lt_zero, fun _ _ => rfl⟩

theorem pack_meets {d z len : ℕ} (hz : z ≤ d) (hd : d + len ≤ m.size) :
    Meets (pack d z len m) (Moved m d z len) := by
  apply Meets.range (Moved m d z)
  case init => exact Moved.refl m d z
  case step =>
      intro i hi m' hm'
      have hsize := hm'.size
      -- the byte read is above all that was written
      apply Meets.rd_bind (by omega)
      rw [wr_of_lt (by omega), hm'.rest (d + i) (.inr (by omega))]
      refine Meets.value ⟨hsize, fun j hj => ?_, fun j hj => ?_⟩
      · rcases Nat.lt_succ_iff_lt_or_eq.mp hj with hj | rfl
        · rw [Cells.set_of_ne _ _ (by omega), hm'.moved j hj]
        · rw [Cells.set_self]
      · rw [Cells.set_of_ne _ _ (by omega)]
        exact hm'.rest j (by omega)

/-- How much a chunk packs. -/
def packs (ty : List UInt8) (len : ℕ) : ℕ := if ty = idat then len else 0

/-- What a chunk does. -/
structure Took (ty : List UInt8) (d len : ℕ) (s s' : Walk) : Prop where
  moved : Moved s.mem d s.z (packs ty len) s'.mem
  pos : s'.pos = s.pos
  z : s'.z = s.z + packs ty len
  head : s'.head.Fair
  ended : s'.ended = true → s'.head.w ≠ 0

theorem take_meets {ty : List UInt8} {d len : ℕ} (hs : s.head.Fair) (hz : s.z ≤ d) (hd : d + len ≤ s.mem.size)
    (hgo : s.ended = false) : Meets (take ty d len s) (Took ty d len s) := by
  have hnot : ¬ s.ended = true := by simp [hgo]
  have keep : ∀ head : Head, ty ≠ idat → head.Fair → Took ty d len s { s with head := head } := by
    intro head hty hhead
    have hpacks : packs ty len = 0 := if_neg hty
    refine ⟨?_, rfl, ?_, hhead, fun h => absurd h hnot⟩
    · rw [hpacks]
      exact Moved.refl s.mem d s.z
    · rw [hpacks]
      rfl
  unfold take
  split
  case isTrue => exact Meets.refused
  case isFalse hfirst =>
      split
      case isTrue h =>
          apply (readIhdr_meets hs hd).bind
          exact fun head hhead => Meets.value (keep head (by rw [h]; decide) hhead)
      case isFalse hihdr =>
          split
          case isTrue h =>
              apply (readPlte_meets hs hd).bind
              exact fun head hhead => Meets.value (keep head (by rw [h]; decide) hhead)
          case isFalse =>
              split
              case isTrue h =>
                  apply (readTrns_meets hs hd).bind
                  exact fun head hhead => Meets.value (keep head (by rw [h]; decide) hhead)
              case isFalse =>
                  split
                  case isTrue h =>
                      have hpacks : packs ty len = len := if_pos h
                      apply (pack_meets hz hd).bind
                      intro mem hmem
                      exact Meets.value ⟨hpacks.symm ▸ hmem, rfl, hpacks.symm ▸ rfl, hs,
                        fun h => absurd h hnot⟩
                  case isFalse hidat =>
                      have hkeep := keep s.head hidat hs
                      split
                      case isTrue => exact Meets.value ⟨hkeep.moved, rfl, hkeep.z, hs,
                        fun _ h0 => hfirst ⟨h0, hihdr⟩⟩
                      case isFalse =>
                          split
                          case isTrue => exact Meets.refused
                          case isFalse => exact Meets.value hkeep

/-- The loop past `k` chunks: the run packed is the stream so far, and all from the next chunk
on is as it was. -/
structure Packed (n : ℕ) (m : Buf) (k : ℕ) (s : Walk) : Prop where
  size : s.mem.size = m.size
  pos : s.pos = (stream m k).1
  within : s.pos ≤ n
  z : s.z = (stream m k).2.length
  behind : s.z + 8 ≤ s.pos
  ahead : ∀ i, s.pos ≤ i → s.mem i = m i
  packed : ∀ i < s.z, s.mem i = (stream m k).2.getD i 0
  head : s.head.Fair
  ended : s.ended = true → s.head.w ≠ 0

theorem packed_begin (hn : 8 ≤ n) (m : Buf) : Packed n m 0 (Walk.begin m) where
  size := rfl
  pos := rfl
  within := hn
  z := rfl
  behind := le_rfl
  ahead _ _ := rfl
  packed i hi := absurd hi i.not_lt_zero
  head := Head.blank_fair
  ended h := absurd h Bool.false_ne_true

/-- A chunk keeps it. -/
theorem Packed.chunk (hn : n < 2 ^ 32) (hcap : n ≤ m.size) (h : Packed n m k s) (hgo : s.ended = false) :
    Meets (chunk n s) (Packed n m (k + 1)) := by
  have hsize := h.size
  have hbehind := h.behind
  unfold Png.chunk
  split
  case isTrue => exact Meets.refused
  case isFalse hroom =>
      rw [qpBe32_eq (by omega), readType_eq (by omega)]
      have hlen : lenAt s.mem s.pos = lenAt m s.pos := by
        simp only [lenAt]
        rw [h.ahead _ le_rfl, h.ahead _ (by omega), h.ahead _ (by omega), h.ahead _ (by omega)]
      have htype : typeAt s.mem s.pos = typeAt m s.pos := by
        simp only [typeAt]
        rw [h.ahead _ (by omega), h.ahead _ (by omega), h.ahead _ (by omega), h.ahead _ (by omega)]
      simp only [bind, Except.bind, hlen, htype]
      split
      case isTrue => exact Meets.refused
      case isFalse hfit =>
          apply (take_meets h.head (d := s.pos + 8) (by omega) (by omega) hgo).bind
          intro s' hs'
          have hpos := hs'.pos
          have hz := hs'.z
          have hpacks : packs (typeAt m s.pos) (lenAt m s.pos) ≤ lenAt m s.pos := by
            unfold packs
            split <;> omega
          -- what the chunk adds to the stream
          have hadd : (stream m (k + 1)).2 = (stream m k).2 ++
              (List.range (packs (typeAt m s.pos) (lenAt m s.pos))).map fun i => m (s.pos + 8 + i) := by
            simp only [stream, ← h.pos, packs]
            split <;> rfl
          have hmod : (12 + lenAt m s.pos) % 2 ^ 32 = 12 + lenAt m s.pos := Nat.mod_eq_of_lt (by omega)
          apply Meets.value
          refine ⟨hs'.moved.size.trans hsize, ?_, ?_, ?_, ?_, ?_, ?_, hs'.head, hs'.ended⟩
          · simp only [stream, ← h.pos, hpos, hmod]
          · simp only [hmod]
            omega
          · rw [hadd, List.length_append, List.length_map, List.length_range, ← h.z]
            exact hz
          · simp only [hmod]
            omega
          · intro i hi
            simp only [hmod] at hi
            rw [hs'.moved.rest i (.inr (by omega)), h.ahead i (by omega)]
          · intro i hi
            have hlength := h.z
            rw [hadd]
            by_cases hlt : i < s.z
            · rw [List.getD_append _ _ _ _ (by omega), hs'.moved.rest i (.inl hlt), h.packed i hlt]
            · have hi' : i - s.z < packs (typeAt m s.pos) (lenAt m s.pos) := by
                simp only at hi
                omega
              have hmoved := hs'.moved.moved (i - s.z) hi'
              rw [List.getD_append_right _ _ _ _ (by omega), ← hlength, List.getD_eq_getElem _ _ (by simpa using hi'),
                List.getElem_map, List.getElem_range, ← h.ahead _ (by omega), ← hmoved]
              congr 1
              omega

/-- The chunks up to IEND. -/
theorem chunks_meets (hn : n < 2 ^ 32) (hcap : n ≤ m.size) {fuel : ℕ} (h : Packed n m k s)
    (hr : Reaches n m k s) (hfuel : n < k + fuel) :
    Meets (chunks n fuel s) fun s' => ∃ k', Reaches n m k' s' ∧ s'.ended = true := by
  induction fuel generalizing k s with
  | zero =>
      have hpos := h.pos
      have hwithin := h.within
      have := le_stream m k
      omega
  | succ fuel ih =>
      unfold chunks
      split
      case isTrue hended => exact Meets.value ⟨k, hr, hended⟩
      case isFalse hended =>
          have hgo : s.ended = false := by simpa using hended
          cases hc : chunk n s with
          | error e =>
              have hsafe := h.chunk hn hcap hgo
              rw [hc] at hsafe
              exact hsafe
          | ok s' => exact ih ((h.chunk hn hcap hgo).of_ok hc) (hr.chunk hgo hc) (by omega)

theorem Reaches.packed (hn : n < 2 ^ 32) (h8 : 8 ≤ n) (hcap : n ≤ m.size) (h : Reaches n m k s) :
    Packed n m k s := by
  induction h with
  | begin => exact packed_begin h8 m
  | chunk _ hgo hc ih => exact (ih.chunk hn hcap hgo).of_ok hc

end LoveRuntime.Png

/-! # A PNG is decoded in place -/

namespace LoveRuntime.Png

open Checked

variable {inflate : Inflater} {m : Buf} {n k : ℕ} {s : Walk}

theorem Walk.z_le_f0 (s : Walk) : s.z ≤ s.f0 := by
  unfold Walk.f0
  omega

theorem Walk.px_le_f0 (s : Walk) : s.head.px ≤ s.f0 := by
  unfold Walk.f0
  omega

theorem readBytes_eq {p len : ℕ} (h : p + len ≤ m.size) :
    readBytes m p len = .ok ((List.range len).map fun i => m (p + i)) := by
  apply mapM_eq
  intro i hi
  rw [List.mem_range] at hi
  exact rd_of_lt (by omega)

/-- The bytes `l` laid from `p` on. -/
structure Laid (l : List UInt8) (p : ℕ) (m m' : Buf) : Prop where
  size : m'.size = m.size
  laid : ∀ i < l.length, m' (p + i) = l.getD i 0
  rest : ∀ j, j < p ∨ p + l.length ≤ j → m' j = m j

theorem writeBytes_meets {l : List UInt8} {p : ℕ} (h : p + l.length ≤ m.size) :
    Meets (writeBytes l p m) (Laid l p m) := by
  apply Meets.mono (P := fun m' => m'.size = m.size ∧ (∀ i < l.length, m' (p + i) = l.getD i 0) ∧
    ∀ j, j < p ∨ p + l.length ≤ j → m' j = m j)
  case hPQ => exact fun m' h => ⟨h.1, h.2.1, h.2.2⟩
  apply Meets.range fun k (m' : Buf) => m'.size = m.size ∧ (∀ i < k, m' (p + i) = l.getD i 0) ∧
    ∀ j, j < p ∨ p + k ≤ j → m' j = m j
  case init => exact ⟨rfl, fun i hi => absurd hi i.not_lt_zero, fun _ _ => rfl⟩
  case step =>
      rintro k hk m' ⟨hsize, hlaid, hrest⟩
      rw [wr_of_lt (by omega)]
      refine Meets.value ⟨hsize, fun i hi => ?_, fun j hj => ?_⟩
      · rcases Nat.lt_succ_iff_lt_or_eq.mp hi with hi | rfl
        · rw [Cells.set_of_ne _ _ (by omega), hlaid i hi]
        · rw [Cells.set_self]
      · rw [Cells.set_of_ne _ _ (by omega)]
        exact hrest j (by omega)

/-- The rows inflated out of the packed run `src`, behind it and behind the pixels. -/
structure Inflated (inflate : Inflater) (src : List UInt8) (s : Walk) (rows : Buf) : Prop where
  size : rows.size = s.mem.size
  fits : s.f0 + s.head.fsz ≤ s.mem.size
  rest : ∀ j, j < s.f0 ∨ s.f0 + s.head.fsz ≤ j → rows j = s.mem j
  out : ∃ out : List UInt8, inflate.run src s.head.fsz = (out, (s.head.fsz : ℤ)) ∧ out.length = s.head.fsz ∧
    ∀ i < s.head.fsz, rows (s.f0 + i) = out.getD i 0

theorem inflateRows_meets (h : Packed n m k s) :
    Meets (inflateRows inflate s) (Inflated inflate ((stream m k).2.drop 2) s) := by
  have hz := s.z_le_f0
  unfold inflateRows
  split
  case isTrue => exact Meets.refused
  case isFalse =>
      split
      case isTrue => exact Meets.refused
      case isFalse hroom =>
          apply Meets.rd_bind (by omega)
          apply Meets.rd_bind (by omega)
          split
          case isTrue => exact Meets.refused
          case isFalse =>
              have hsrc : (List.range (s.z - 2)).map (fun i => s.mem (2 + i)) = (stream m k).2.drop 2 := by
                have hlength := h.z
                apply List.ext_getElem
                · simp [hlength]
                · intro i hi hi'
                  simp only [List.length_map, List.length_range] at hi
                  rw [List.getElem_map, List.getElem_range, List.getElem_drop, h.packed _ (by omega),
                    List.getD_eq_getElem]
              have hfits := inflate.fits ((stream m k).2.drop 2) s.head.fsz
              have hcounts := inflate.counts ((stream m k).2.drop 2) s.head.fsz
              rw [readBytes_eq (by omega), hsrc]
              apply Meets.bind (writeBytes_meets (by omega))
              intro rows hrows
              split
              case isTrue => exact Meets.refused
              case isFalse hanswer =>
                  have hans := not_not.mp hanswer
                  have hlen : (inflate.run ((stream m k).2.drop 2) s.head.fsz).1.length = s.head.fsz := by
                    omega
                  refine Meets.value ⟨hrows.size, by omega, ?_, _, Prod.ext rfl hans, hlen, ?_⟩
                  · intro j hj
                    exact hrows.rest j (by omega)
                  · intro i hi
                    exact hrows.laid i (by omega)

/-- A picture of the file: past `k` chunks the stream is inflated to `out`, and each pixel is put
once, in the colour of its own sample. -/
structure Drawn (inflate : Inflater) (m : Buf) (n : ℕ) (pic : Picture) (k : ℕ) (s : Walk) (out : List UInt8) :
    Prop where
  reaches : Reaches n m k s
  ended : s.ended = true
  head : pic.head = s.head
  inflated : inflate.run ((stream m k).2.drop 2) pic.head.fsz = (out, (pic.head.fsz : ℤ))
  whole : out.length = pic.head.fsz
  once : pic.put.Perm (List.range (pic.head.w * pic.head.h))
  colours : ∀ p y x, pic.head.Spot p y x →
    Shows pic.mem (pic.head.target p y x) (colour pic.head (pic.head.row (fun i => out.getD i 0) p y) x)

theorem cbPng_meets (hn : n < 2 ^ 32) :
    Meets (cbPng inflate m n) fun pic => ∃ k s out, Drawn inflate m n pic k s out := by
  unfold cbPng
  split
  case isTrue => exact Meets.refused
  case isFalse hsize =>
      have h8 : 8 ≤ n := by omega
      have hcap : n ≤ m.size := by omega
      rw [readBytes_eq (by omega)]
      simp only [bind, Except.bind]
      split
      case isTrue => exact Meets.refused
      case isFalse =>
          apply (chunks_meets hn hcap (packed_begin h8 m) .begin (by omega)).bind
          rintro s ⟨k, hr, hended⟩
          have hpacked := hr.packed hn h8 hcap
          have hw := hpacked.ended hended
          have hh := (hpacked.head.sized hw).1
          have hsound := hpacked.head.sound hw
          have hw' : 0 < s.head.w := Nat.pos_of_ne_zero hw
          have hh' : 0 < s.head.h := Nat.pos_of_ne_zero hh
          apply (inflateRows_meets hpacked).bind
          intro rows hrows
          obtain ⟨out, hout, hwhole, hbytes⟩ := hrows.out
          obtain ⟨col, hcol⟩ := exists_colours hw' fun i => out.getD i 0
          have hfits : s.f0 + s.head.fsz ≤ rows.size := by
            rw [hrows.size]
            exact hrows.fits
          apply (paint_meets hsound hw' hh' hcol hbytes s.px_le_f0 hfits).bind
          intro t ht
          apply Meets.value
          refine ⟨k, s, out, hr, hended, rfl, hout, hwhole, ?_, ?_⟩
          · rw [ht.put]
            exact s.head.targets_perm hw' hh'
          · intro p y x hspot
            have hshown : s.head.target p y x ∈ t.put := by
              rw [ht.put]
              exact Head.mem_targets.mpr ⟨p, y, x, hspot, rfl⟩
            rw [← hcol p y x hspot]
            exact ht.shown _ hshown

/-- What `cb_png` keeps to in the region `m`, its first `n` bytes the file. -/
structure InPlace (inflate : Inflater) (m : Buf) (n : ℕ) : Prop where
  tame : cbPng inflate m n ≠ .error .wild
  packed : 8 ≤ n → n ≤ m.size → ∀ k s, Reaches n m k s → Packed n m k s
  apart : 8 ≤ n → n ≤ m.size → ∀ k s, Reaches n m k s → ∀ rows, inflateRows inflate s = .ok rows →
    s.z ≤ s.f0 ∧ s.head.px ≤ s.f0 ∧ Inflated inflate ((stream m k).2.drop 2) s rows
  drawn : ∀ pic, cbPng inflate m n = .ok pic → ∃ k s out, Drawn inflate m n pic k s out

/-- A caller counts the file's bytes in 32 bits. -/
theorem cbPng_inPlace (inflate : Inflater) (m : Buf) (n : ℕ) (hn : n < 2 ^ 32) : InPlace inflate m n where
  tame := (cbPng_meets hn).not_wild
  packed h8 hcap _ _ hr := hr.packed hn h8 hcap
  apart h8 hcap _ s hr _ hrows :=
    ⟨s.z_le_f0, s.px_le_f0, (inflateRows_meets (hr.packed hn h8 hcap)).of_ok hrows⟩
  drawn _ hpic := (cbPng_meets hn).of_ok hpic

/-- The DEFLATE decoder over a stream of one stored block. -/
def stored : Inflater where
  run src cap :=
    let len := (src.getD 1 0).toNat ||| (src.getD 2 0).toNat <<< 8
    let nlen := (src.getD 3 0).toNat ||| (src.getD 4 0).toNat <<< 8
    let data := (src.drop 5).take len
    if src.getD 0 0 ≠ 1 ∨ len ^^^ 65535 ≠ nlen ∨ data.length ≠ len then ([], -1)
    else if cap < len then ([], -2)
    else (data, len)
  fits src cap := by
    dsimp only
    split_ifs
    · exact Nat.zero_le cap
    · exact Nat.zero_le cap
    · rw [List.length_take]
      omega
  counts src cap := by
    dsimp only
    split_ifs with hbad
    · decide
    · decide
    · exact Int.ofNat_le.mpr (not_not.mp fun h => hbad (.inr (.inr fun h' => h h'.ge)))

/-- A picture of one pixel. -/
def dot : List UInt8 :=
  sig ++ [0, 0, 0, 13] ++ ihdr ++ [0, 0, 0, 1, 0, 0, 0, 1, 8, 2, 0, 0, 0, 0, 0, 0, 0] ++
    [0, 0, 0, 15] ++ idat ++ [120, 1, 1, 4, 0, 251, 255, 0, 10, 20, 30, 0, 0, 0, 0, 0, 0, 0, 0] ++
      [0, 0, 0, 0] ++ iend ++ [0, 0, 0, 0]

def region (l : List UInt8) (cap : ℕ) : Buf := ⟨cap, fun i => l.getD i 0⟩

theorem cbPng_inPlace_dot : InPlace stored (region dot 84) dot.length :=
  cbPng_inPlace stored (region dot 84) dot.length (by decide)

example : (cbPng stored (region dot 84) dot.length).toOption.map
    (fun pic => (pic.put, (List.range 4).map pic.mem)) = some ([0], [30, 20, 10, 255]) := by
  decide

end LoveRuntime.Png
