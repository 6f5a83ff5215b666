import LoveRuntime.Model.Picture.Qoi
import Mathlib.Data.List.GetD
import Mathlib.Data.List.Range
import Mathlib.Tactic.IntervalCases

/-! A QOI picture read back is the picture written. The decoder writes its index on every op and the encoder only on
a new colour; they agree wherever the encoder can name a slot. -/

namespace LoveRuntime.Qoi

open Loop

variable {px : Buf} {e : Encoder} {p prev : Px} {ix : Cells Px} {bs : List UInt8}

/-! ### Bytes laid -/

/-- `m` with `bs` laid from `q` on. -/
def overlay (q : ℕ) (bs : List UInt8) (m : Buf) : Buf :=
  ⟨m.size, fun i => if q ≤ i then bs.getD (i - q) (m i) else m i⟩

theorem overlay_nil (q : ℕ) (m : Buf) : overlay q [] m = m := by
  unfold overlay
  congr
  funext i
  split <;> rfl

theorem overlay_cons (q : ℕ) (b : UInt8) (bs : List UInt8) (m : Buf) :
    overlay (q + 1) bs (m.set q b) = overlay q (b :: bs) m := by
  refine congrArg (Cells.mk m.size) (funext fun i => ?_)
  rcases lt_trichotomy i q with hlt | rfl | hgt
  case inl => rw [if_neg (by omega), if_neg (by omega), Cells.set_of_ne _ _ hlt.ne]
  case inr.inl => rw [if_neg (by omega), if_pos (le_refl _), Cells.set_self, Nat.sub_self, List.getD_cons_zero]
  case inr.inr =>
    obtain ⟨k, rfl⟩ := Nat.exists_eq_add_of_lt hgt
    rw [if_pos (by omega), if_pos (by omega), Cells.set_of_ne _ _ hgt.ne', show q + k + 1 - q = k + 1 by omega,
      show q + k + 1 - (q + 1) = k by omega, List.getD_cons_succ]

def Encoder.puts (e : Encoder) (bs : List UInt8) : Encoder :=
  { e with q := e.q + bs.length, o := e.o.map (overlay e.q bs) }

theorem puts_nil (e : Encoder) : e.puts [] = e := by
  cases e with
  | mk ix prev q run o => cases o <;> simp [Encoder.puts, overlay_nil]

theorem put_puts (e : Encoder) (b : UInt8) (bs : List UInt8) : (e.put b).puts bs = e.puts (b :: bs) := by
  cases e with
  | mk ix prev q run o =>
      simp only [Encoder.put, Encoder.puts, List.length_cons, Option.map_map]
      congr 1
      · omega
      · congr 1
        funext m
        exact overlay_cons q b bs m

theorem puts_append (e : Encoder) (bs cs : List UInt8) : (e.puts bs).puts cs = e.puts (bs ++ cs) := by
  induction bs generalizing e with
  | nil => rw [puts_nil, List.nil_append]
  | cons b bs ih => rw [← put_puts, ih, put_puts, List.cons_append]

theorem put_eq (e : Encoder) (b : UInt8) : e.put b = e.puts [b] := by
  rw [← put_puts, puts_nil]

/-! ### The bytes of the ops -/

def runByte (run : ℕ) : UInt8 := (0xc0 : UInt8) ||| u8 (run - 1)

def diffByte (vr vg vb : ℤ) : UInt8 := (0x40 : UInt8) ||| u8 (vr + 2) <<< 4 ||| u8 (vg + 2) <<< 2 ||| u8 (vb + 2)

def lumaBytes (vg gr gb : ℤ) : List UInt8 := [(0x80 : UInt8) ||| u8 (vg + 32), u8 (gr + 8) <<< 4 ||| u8 (gb + 8)]

/-- The op of a pixel `p` that is not the one before it. -/
def pixelBytes (ix : Cells Px) (prev p : Px) : List UInt8 :=
  if ix (qoiHash p) = p then [(0x00 : UInt8) ||| u8 (qoiHash p)]
  else if p.a = prev.a then
    let vr := int8 (p.r - prev.r)
    let vg := int8 (p.g - prev.g)
    let vb := int8 (p.b - prev.b)
    if vr > -3 ∧ vr < 2 ∧ vg > -3 ∧ vg < 2 ∧ vb > -3 ∧ vb < 2 then [diffByte vr vg vb]
    else if vr - vg > -9 ∧ vr - vg < 8 ∧ vg > -33 ∧ vg < 32 ∧ vb - vg > -9 ∧ vb - vg < 8 then
      lumaBytes vg (vr - vg) (vb - vg)
    else [0xfe, p.r, p.g, p.b]
  else [0xff, p.r, p.g, p.b, p.a]

def runBytes (run : ℕ) : List UInt8 := if run ≠ 0 then [runByte run] else []

/-- The ops of the pixels left, after `run` pixels that are `prev` again. -/
def opBytes (ix : Cells Px) (prev : Px) (run : ℕ) : List Px → List UInt8
  | [] => []
  | p :: ps =>
    if p = prev then
      if run + 1 = 62 ∨ ps = [] then runByte (run + 1) :: opBytes ix prev 0 ps
      else opBytes ix prev (run + 1) ps
    else runBytes run ++ pixelBytes ix prev p ++ opBytes (ix.set (qoiHash p) p) p 0 ps

/-- The encoder after laying `bs`. -/
def Encoder.next (e : Encoder) (bs : List UInt8) (ix : Cells Px) (prev : Px) (run : ℕ) : Encoder :=
  { e.puts bs with ix := ix, prev := prev, run := run }

theorem Cells.set_same (a : Cells Px) (k : ℕ) : a.set k (a k) = a := by
  unfold Cells.set
  congr
  funext j
  split
  case isTrue heq => rw [heq]
  case isFalse => rfl

theorem flush_eq (e : Encoder) : e.flush = e.next [runByte e.run] e.ix e.prev 0 := by
  rw [Encoder.flush, put_eq]
  rfl

theorem encodeColour_eq (p : Px) (e : Encoder) (k : ℕ) (hk : k = qoiHash p) (hne : e.ix k ≠ p) :
    encodeColour p { e with ix := e.ix.set k p } =
      e.next (pixelBytes e.ix e.prev p) (e.ix.set k p) e.prev e.run := by
  subst hk
  unfold encodeColour pixelBytes
  rw [if_neg hne]
  dsimp only
  split_ifs <;> simp only [put_eq, puts_append] <;> rfl

/-- The encoder has laid `bs` from 14 on, into `o`. -/
structure Written (o : Option Buf) (bs : List UInt8) (e : Encoder) : Prop where
  q : e.q = 14 + bs.length
  o : e.o = o.map (overlay 14 bs)

theorem Written.next {o : Option Buf} {bs cs : List UInt8} {run : ℕ} (h : Written o bs e) :
    Written o (bs ++ cs) (e.next cs ix prev run) := by
  have hlaid : e.puts cs = { e with q := 14 + (bs ++ cs).length, o := o.map (overlay 14 (bs ++ cs)) } := by
    have hboth := puts_append { e with q := 14, o := o } bs cs
    have hbs : Encoder.puts { e with q := 14, o := o } bs = e := by
      obtain ⟨hq, ho⟩ := h
      cases e
      simp only [Encoder.puts] at *
      rw [← hq, ← ho]
    rw [hbs] at hboth
    exact hboth
  unfold Encoder.next
  rw [hlaid]
  exact ⟨rfl, rfl⟩

theorem next_next {e : Encoder} {cs : List UInt8} {ix ix' : Cells Px} {prev prev' : Px} {run run' : ℕ} :
    (e.next bs ix prev run).next cs ix' prev' run' = e.next (bs ++ cs) ix' prev' run' := by
  unfold Encoder.next
  rw [← puts_append]
  rfl

theorem next_nil (e : Encoder) : e.next [] e.ix e.prev e.run = e := by
  unfold Encoder.next
  rw [puts_nil]

theorem newPixel_eq (p : Px) (e : Encoder) :
    { (if e.ix (qoiHash p) = p then e.put ((0x00 : UInt8) ||| u8 (qoiHash p))
      else encodeColour p { e with ix := e.ix.set (qoiHash p) p }) with prev := p } =
      e.next (pixelBytes e.ix e.prev p) (e.ix.set (qoiHash p) p) p e.run := by
  by_cases hknown : e.ix (qoiHash p) = p
  case pos =>
    have hset : e.ix.set (qoiHash p) p = e.ix := by
      have hsame := Cells.set_same e.ix (qoiHash p)
      rwa [hknown] at hsame
    rw [hset, if_pos hknown, pixelBytes, if_pos hknown, put_eq]
    rfl
  case neg =>
    rw [if_neg hknown, encodeColour_eq _ _ _ rfl hknown]
    rfl

/-- One turn lays what the pixel adds to the stream. -/
theorem encodePixel_next (px : Buf) (n i : ℕ) (e : Encoder) (ps : List Px) (hend : i + 4 = n ↔ ps = []) :
    ∃ bs ix prev run, encodePixel px n i e = e.next bs ix prev run ∧
      opBytes e.ix e.prev e.run (Px.at px i :: ps) = bs ++ opBytes ix prev run ps := by
  unfold encodePixel
  by_cases hsame : Px.at px i = e.prev
  case pos =>
    dsimp only
    rw [if_pos hsame, opBytes, if_pos hsame]
    simp only [hend]
    by_cases hflush : e.run + 1 = 62 ∨ ps = []
    case pos =>
      rw [if_pos hflush, if_pos hflush, flush_eq]
      exact ⟨[runByte (e.run + 1)], e.ix, e.prev, 0, rfl, rfl⟩
    case neg =>
      rw [if_neg hflush, if_neg hflush]
      refine ⟨[], e.ix, e.prev, e.run + 1, ?_, rfl⟩
      unfold Encoder.next
      rw [puts_nil]
  case neg =>
    dsimp only
    rw [if_neg hsame, opBytes, if_neg hsame]
    have hflush : (if e.run ≠ 0 then e.flush else e) = e.next (runBytes e.run) e.ix e.prev 0 := by
      unfold runBytes
      split
      case isTrue => rw [flush_eq]
      case isFalse hzero =>
        have hrun := next_nil e
        rw [show e.run = 0 by omega] at hrun
        exact hrun.symm
    rw [hflush]
    refine ⟨_, e.ix.set (qoiHash (Px.at px i)) (Px.at px i), Px.at px i, 0, ?_, rfl⟩
    rw [newPixel_eq, next_next]
    rfl

def pixels (px : Buf) (count : ℕ) : List Px := (List.range count).map (fun j => Px.at px (4 * j))

theorem pixels_drop {count j : ℕ} (hlt : j < count) :
    (pixels px count).drop j = Px.at px (4 * j) :: (pixels px count).drop (j + 1) := by
  rw [List.drop_eq_getElem_cons (by simpa [pixels] using hlt)]
  simp [pixels]

/-- The bytes after the head. -/
def stream (px : Buf) (count : ℕ) : List UInt8 :=
  opBytes (Cells.fill 64 .zero) .first 0 (pixels px count) ++ [0, 0, 0, 0, 0, 0, 0, 1]

def alphaOf (px : Buf) (count : ℕ) : Bool := upto count (fun j alpha => alpha || px (4 * j + 3) != 255) false

theorem written_qoiEnc (px : Buf) (w h : ℕ) (o : Option Buf) :
    Written (o.map (layHead w h (alphaOf px (w * h)))) (stream px (w * h)) (qoiEnc px w h o) := by
  let P := fun (j : ℕ) (e : Encoder) => ∃ bs, Written (o.map (layHead w h (alphaOf px (w * h)))) bs e ∧
    opBytes (Cells.fill 64 .zero) .first 0 (pixels px (w * h)) =
      bs ++ opBytes e.ix e.prev e.run ((pixels px (w * h)).drop j)
  have hops : P (w * h) (upto (w * h) (fun j e => encodePixel px (w * h * 4) (4 * j) e)
      ⟨Cells.fill 64 .zero, .first, 14, 0, o.map (layHead w h (alphaOf px (w * h)))⟩) := by
    apply upto_invariant
    case init =>
      refine ⟨[], ⟨rfl, ?_⟩, rfl⟩
      cases o <;> simp [overlay_nil]
    case step =>
      rintro j e hlt ⟨bs, hwritten, heq⟩
      obtain ⟨cs, ix, prev, run, hstep, hbytes⟩ :=
        encodePixel_next px (w * h * 4) (4 * j) e ((pixels px (w * h)).drop (j + 1))
          (by rw [List.drop_eq_nil_iff]; simp only [pixels, List.length_map, List.length_range]; omega)
      refine ⟨bs ++ cs, ?_, ?_⟩
      · rw [hstep]
        exact hwritten.next
      · rw [heq, pixels_drop hlt, hbytes, hstep, List.append_assoc]
        rfl
  obtain ⟨bs, hwritten, heq⟩ := hops
  rw [List.drop_eq_nil_of_le (by simp [pixels]), opBytes, List.append_nil] at heq
  have hend : qoiEnc px w h o = Encoder.puts
      (upto (w * h) (fun j e => encodePixel px (w * h * 4) (4 * j) e)
        ⟨Cells.fill 64 .zero, .first, 14, 0, o.map (layHead w h (alphaOf px (w * h)))⟩) [0, 0, 0, 0, 0, 0, 0, 1] := by
    unfold qoiEnc
    simp only [upto, put_eq, puts_append]
    rfl
  rw [hend, stream, heq]
  exact hwritten.next

/-! ### The bytes ahead -/

/-- What is left of `s` from `p` on. -/
def ahead (s : Buf) (p : ℕ) : List UInt8 := (List.range (s.size - p)).map (fun i => s (p + i))

theorem ahead_eq_cons {s : Buf} {q : ℕ} {b : UInt8} (heq : ahead s q = b :: bs) :
    q < s.size ∧ s q = b ∧ ahead s (q + 1) = bs := by
  have hlt : q < s.size := by
    by_contra hge
    rw [ahead, Nat.sub_eq_zero_of_le (not_lt.mp hge)] at heq
    simp at heq
  have hlen : s.size - q = s.size - (q + 1) + 1 := by omega
  rw [ahead, hlen, List.range_succ_eq_map, List.map_cons, List.map_map] at heq
  injection heq with hb hbs
  refine ⟨hlt, hb, ?_⟩
  rw [← hbs, ahead]
  apply List.map_congr_left
  intro i hi
  rw [Function.comp_apply, Nat.succ_eq_add_one, Nat.add_assoc, Nat.add_comm 1 i]

/-! ### Reading an op -/

/-- The op's bytes bring the decoder to `p`, past them. -/
def Reads (s : Buf) (d : Decoder) (bs : List UInt8) (p : Px) : Prop :=
  ∀ rest, ahead s d.p = bs ++ rest → ∃ b d', d.p < s.size ∧ s d.p = b ∧
    decodeOp s b { d with p := d.p + 1 } = .ok d' ∧ d'.px = p ∧ d'.ix = d.ix ∧ d'.run = d.run ∧ d'.out = d.out ∧
    ahead s d'.p = rest

theorem int8_bounds (x : UInt8) : -128 ≤ int8 x ∧ int8 x < 128 := by
  have := x.toNat_lt
  unfold int8
  split <;> omega

theorem u8_toNat (x : ℤ) : ((u8 x).toNat : ℤ) = x % 256 := by
  have hlow := Int.emod_nonneg x (show (256 : ℤ) ≠ 0 by decide)
  have hhigh := Int.emod_lt_of_pos x (show (0 : ℤ) < 256 by decide)
  rw [u8, UInt8.toNat_ofNat', Nat.mod_eq_of_lt (by omega)]
  exact Int.toNat_of_nonneg hlow

theorem int8_toNat (x : UInt8) : int8 x % 256 = x.toNat := by
  have := x.toNat_lt
  unfold int8
  split <;> omega

/-- A byte is known by its value modulo 256. -/
theorem u8_ext {x y : UInt8} (h : (x.toNat : ℤ) % 256 = y.toNat % 256) : x = y := by
  have := x.toNat_lt
  have := y.toNat_lt
  apply UInt8.toNat_inj.mp
  omega

/-- A difference that was stored with an offset is added back. -/
theorem add_back (p q off : UInt8) (x : ℤ) (hx : x % 256 = (int8 (p - q) + off.toNat) % 256) : q + u8 x - off = p := by
  have hu := u8_toNat x
  have hd := int8_toNat (p - q)
  have hp := p.toNat_lt
  have hq := q.toNat_lt
  have hoff := off.toNat_lt
  have := (u8 x).toNat_lt
  apply u8_ext
  rw [UInt8.toNat_sub, UInt8.toNat_add]
  rw [UInt8.toNat_sub] at hd
  omega

theorem add_back_green (p q : UInt8) (g : ℤ) (hg : g = int8 (p - q) + 32) : q + (u8 g - 32) = p := by
  have hback := add_back p q 32 g (by rw [hg]; rfl)
  have hu := (u8 g).toNat_lt
  have hq := q.toNat_lt
  rw [← hback]
  apply u8_ext
  rw [UInt8.toNat_sub, UInt8.toNat_add, UInt8.toNat_add, UInt8.toNat_sub]
  have : (32 : UInt8).toNat = 32 := rfl
  omega

/-- A channel told by its distance from the green one. -/
theorem add_back_near (p q : UInt8) (g x : ℤ) (hx : x = int8 (p - q) - (g - 32) + 8) :
    q + (u8 g - 32) - 8 + u8 x = p := by
  have hu := u8_toNat g
  have hv := u8_toNat x
  have hd := int8_toNat (p - q)
  have hp := p.toNat_lt
  have hq := q.toNat_lt
  have hg := (u8 g).toNat_lt
  have hx := (u8 x).toNat_lt
  have h32 : (32 : UInt8).toNat = 32 := rfl
  have h8 : (8 : UInt8).toNat = 8 := rfl
  apply u8_ext
  rw [UInt8.toNat_add, UInt8.toNat_sub, UInt8.toNat_add, UInt8.toNat_sub, h32, h8]
  rw [UInt8.toNat_sub] at hd
  omega

theorem indexByte_fields : ∀ k : ℕ, k < 64 → ((0x00 : UInt8) ||| u8 k) ≠ 0xfe ∧ ((0x00 : UInt8) ||| u8 k) ≠ 0xff ∧
    ((0x00 : UInt8) ||| u8 k) &&& 0xc0 = 0x00 ∧ ((0x00 : UInt8) ||| u8 k).toNat = k := by
  decide

theorem runByte_fields : ∀ t : ℕ, t < 62 → runByte (t + 1) ≠ 0xfe ∧ runByte (t + 1) ≠ 0xff ∧
    runByte (t + 1) &&& 0xc0 = 0xc0 ∧ (runByte (t + 1) &&& 63).toNat = t := by
  decide

theorem diffByte_fields : ∀ x y z : Fin 4, diffByte (x.val - 2) (y.val - 2) (z.val - 2) ≠ 0xfe ∧
    diffByte (x.val - 2) (y.val - 2) (z.val - 2) ≠ 0xff ∧
    diffByte (x.val - 2) (y.val - 2) (z.val - 2) &&& 0xc0 = 0x40 ∧
    diffByte (x.val - 2) (y.val - 2) (z.val - 2) >>> 4 &&& 3 = u8 x.val ∧
    diffByte (x.val - 2) (y.val - 2) (z.val - 2) >>> 2 &&& 3 = u8 y.val ∧
    diffByte (x.val - 2) (y.val - 2) (z.val - 2) &&& 3 = u8 z.val := by
  decide

theorem lumaByte_fields : ∀ x : Fin 64, ((0x80 : UInt8) ||| u8 x.val) ≠ 0xfe ∧ ((0x80 : UInt8) ||| u8 x.val) ≠ 0xff ∧
    ((0x80 : UInt8) ||| u8 x.val) &&& 0xc0 = 0x80 ∧ ((0x80 : UInt8) ||| u8 x.val) &&& 63 = u8 x.val := by
  decide

theorem nibbles_fields : ∀ x y : Fin 16,
    (u8 x.val <<< 4 ||| u8 y.val) >>> 4 = u8 x.val ∧ (u8 x.val <<< 4 ||| u8 y.val) &&& 15 = u8 y.val := by
  decide

theorem qoiHash_lt (p : Px) : qoiHash p < 64 := Nat.mod_lt _ (by decide)

section Reading

variable {s : Buf} {d : Decoder}

theorem reads_index (hix : d.ix (qoiHash p) = p) : Reads s d [(0x00 : UInt8) ||| u8 (qoiHash p)] p := by
  intro rest heq
  obtain ⟨hlt, hb, hrest⟩ := ahead_eq_cons heq
  obtain ⟨hrgb, hrgba, htag, hk⟩ := indexByte_fields _ (qoiHash_lt p)
  refine ⟨_, { d with p := d.p + 1, px := p }, hlt, hb, ?_, rfl, rfl, rfl, rfl, hrest⟩
  rw [decodeOp, if_neg hrgb, if_neg hrgba, if_pos htag, hk]
  dsimp only
  rw [hix]

/-- A small difference in every channel. -/
theorem reads_diff {vr vg vb : ℤ} (hvr : vr = int8 (p.r - d.px.r)) (hvg : vg = int8 (p.g - d.px.g))
    (hvb : vb = int8 (p.b - d.px.b)) (ha : p.a = d.px.a)
    (hsmall : vr > -3 ∧ vr < 2 ∧ vg > -3 ∧ vg < 2 ∧ vb > -3 ∧ vb < 2) : Reads s d [diffByte vr vg vb] p := by
  intro rest heq
  obtain ⟨hlt, hb, hrest⟩ := ahead_eq_cons heq
  obtain ⟨x, rfl⟩ : ∃ x : Fin 4, vr = x.val - 2 := ⟨⟨(vr + 2).toNat, by omega⟩, by dsimp only; omega⟩
  obtain ⟨y, rfl⟩ : ∃ x : Fin 4, vg = x.val - 2 := ⟨⟨(vg + 2).toNat, by omega⟩, by dsimp only; omega⟩
  obtain ⟨z, rfl⟩ : ∃ x : Fin 4, vb = x.val - 2 := ⟨⟨(vb + 2).toNat, by omega⟩, by dsimp only; omega⟩
  obtain ⟨hrgb, hrgba, htag, hx, hy, hz⟩ := diffByte_fields x y z
  refine ⟨_, { d with p := d.p + 1, px := p }, hlt, hb, ?_, rfl, rfl, rfl, rfl, hrest⟩
  have hr := add_back p.r d.px.r 2 x.val (by rw [← hvr]; congr 1; exact (Int.sub_add_cancel _ _).symm)
  have hg := add_back p.g d.px.g 2 y.val (by rw [← hvg]; congr 1; exact (Int.sub_add_cancel _ _).symm)
  have hblue := add_back p.b d.px.b 2 z.val (by rw [← hvb]; congr 1; exact (Int.sub_add_cancel _ _).symm)
  rw [decodeOp, if_neg hrgb, if_neg hrgba, if_neg (by rw [htag]; decide), if_pos htag]
  simp only [diff, hx, hy, hz, hr, hg, hblue, ← ha]

theorem reads_luma {vr vg vb : ℤ} (hvr : vr = int8 (p.r - d.px.r)) (hvg : vg = int8 (p.g - d.px.g))
    (hvb : vb = int8 (p.b - d.px.b)) (ha : p.a = d.px.a)
    (hnear : vr - vg > -9 ∧ vr - vg < 8 ∧ vg > -33 ∧ vg < 32 ∧ vb - vg > -9 ∧ vb - vg < 8) :
    Reads s d (lumaBytes vg (vr - vg) (vb - vg)) p := by
  intro rest heq
  obtain ⟨hlt, hb, hrest⟩ := ahead_eq_cons heq
  obtain ⟨hlt', hc, hrest'⟩ := ahead_eq_cons hrest
  obtain ⟨g, hg⟩ : ∃ x : Fin 64, vg + 32 = x.val := ⟨⟨(vg + 32).toNat, by omega⟩, by dsimp only; omega⟩
  obtain ⟨x, hx⟩ : ∃ x : Fin 16, vr - vg + 8 = x.val := ⟨⟨(vr - vg + 8).toNat, by omega⟩, by dsimp only; omega⟩
  obtain ⟨z, hz⟩ : ∃ x : Fin 16, vb - vg + 8 = x.val := ⟨⟨(vb - vg + 8).toNat, by omega⟩, by dsimp only; omega⟩
  obtain ⟨hrgb, hrgba, htag, hgreen⟩ := lumaByte_fields g
  obtain ⟨hhigh, hlow⟩ := nibbles_fields x z
  refine ⟨_, { d with p := d.p + 1 + 1, px := p }, hlt, hb, ?_, rfl, rfl, rfl, rfl, hrest'⟩
  have hdg := add_back_green p.g d.px.g g.val (by rw [← hvg, ← hg])
  have hdr := add_back_near p.r d.px.r g.val x.val (by rw [← hvr, ← hg, ← hx]; omega)
  have hdb := add_back_near p.b d.px.b g.val z.val (by rw [← hvb, ← hg, ← hz]; omega)
  rw [hg, decodeOp, if_neg hrgb, if_neg hrgba, if_neg (by rw [htag]; decide), if_neg (by rw [htag]; decide),
    if_pos htag, if_neg (by simpa using hlt')]
  simp only [luma, hc, hgreen, hx, hz, hhigh, hlow, hdg, hdr, hdb, ← ha]

theorem reads_rgb (ha : p.a = d.px.a) : Reads s d [0xfe, p.r, p.g, p.b] p := by
  intro rest heq
  obtain ⟨hlt, hb, hrest⟩ := ahead_eq_cons heq
  obtain ⟨hlt', hr, hrest⟩ := ahead_eq_cons hrest
  obtain ⟨-, hg, hrest⟩ := ahead_eq_cons hrest
  obtain ⟨hlt'', hblue, hrest⟩ := ahead_eq_cons hrest
  refine ⟨_, { d with p := d.p + 1 + 3, px := p }, hlt, hb, ?_, rfl, rfl, rfl, rfl, hrest⟩
  rw [decodeOp, if_pos rfl, if_neg (by dsimp only; omega)]
  dsimp only
  rw [hr, hg, hblue, ← ha]

theorem reads_rgba : Reads s d [0xff, p.r, p.g, p.b, p.a] p := by
  intro rest heq
  obtain ⟨hlt, hb, hrest⟩ := ahead_eq_cons heq
  obtain ⟨hlt', hr, hrest⟩ := ahead_eq_cons hrest
  obtain ⟨-, hg, hrest⟩ := ahead_eq_cons hrest
  obtain ⟨-, hblue, hrest⟩ := ahead_eq_cons hrest
  obtain ⟨hlt'', ha, hrest⟩ := ahead_eq_cons hrest
  refine ⟨_, { d with p := d.p + 1 + 4, px := p }, hlt, hb, ?_, rfl, rfl, rfl, rfl, hrest⟩
  rw [decodeOp, if_neg (by decide), if_pos rfl, if_neg (by dsimp only; omega), Px.at]
  dsimp only
  rw [hr, hg, hblue, ha]

theorem reads_pixel (hix : ix (qoiHash p) = p → d.ix (qoiHash p) = p) : Reads s d (pixelBytes ix d.px p) p := by
  unfold pixelBytes
  split
  case isTrue hknown => exact reads_index (hix hknown)
  case isFalse =>
    split
    case isFalse => exact reads_rgba
    case isTrue ha =>
      dsimp only
      split
      case isTrue hsmall => exact reads_diff rfl rfl rfl ha hsmall
      case isFalse =>
        split
        case isTrue hnear => exact reads_luma rfl rfl rfl ha hnear
        case isFalse => exact reads_rgb ha

end Reading

/-! ### The two indices -/

theorem qoiHash_zero : qoiHash .zero = 0 := rfl

/-- The decoder's index `ixd` has more than the encoder's only where the encoder's slot is still clear and no pixel
that is clear hashes to it. -/
structure Agree (ix ixd : Cells Px) (prev : Px) : Prop where
  slots : ∀ k, ixd k = ix k ∨ k ≠ 0 ∧ ix k = .zero
  current : ix (qoiHash prev) = prev ∨ qoiHash prev ≠ 0 ∧ ix (qoiHash prev) = .zero

namespace Agree

variable {ixd : Cells Px}

theorem start : Agree (Cells.fill 64 .zero) (Cells.fill 64 .zero) .first :=
  ⟨fun _ => .inl rfl, .inr ⟨by decide, rfl⟩⟩

/-- A slot the encoder can name holds the same pixel for the decoder. -/
theorem known (h : Agree ix ixd prev) (hp : ix (qoiHash p) = p) : ixd (qoiHash p) = p := by
  rcases h.slots (qoiHash p) with heq | ⟨hne, hzero⟩
  case inl => rw [heq, hp]
  case inr =>
    rw [hzero] at hp
    rw [← hp] at hne
    exact absurd qoiHash_zero hne

theorem run (h : Agree ix ixd prev) : Agree ix (ixd.set (qoiHash prev) prev) prev := by
  refine ⟨fun k => ?_, h.current⟩
  by_cases hk : k = qoiHash prev
  case pos =>
    subst hk
    rw [Cells.set_self]
    exact h.current.imp Eq.symm id
  case neg =>
    rw [Cells.set_of_ne _ _ hk]
    exact h.slots k

theorem pixel (h : Agree ix ixd prev) (p : Px) : Agree (ix.set (qoiHash p) p) (ixd.set (qoiHash p) p) p := by
  refine ⟨fun k => ?_, .inl (Cells.set_self _ _ _)⟩
  by_cases hk : k = qoiHash p
  case pos =>
    subst hk
    rw [Cells.set_self, Cells.set_self]
    exact .inl rfl
  case neg =>
    rw [Cells.set_of_ne _ _ hk, Cells.set_of_ne _ _ hk]
    exact h.slots k

end Agree

/-! ### In step -/

/-- What the next op is: a run of the pixel before, or a pixel of its own. -/
theorem opBytes_next (ix : Cells Px) (prev : Px) (run : ℕ) (ps : List Px) (hrun : run ≤ 61) (hend : ps = [] → run = 0)
    (hne : List.replicate run prev ++ ps ≠ []) :
    (∃ t ps', t < 62 ∧ opBytes ix prev run ps = runByte (t + 1) :: opBytes ix prev 0 ps' ∧
      List.replicate run prev ++ ps = List.replicate (t + 1) prev ++ ps') ∨
    (run = 0 ∧ ∃ p ps', ps = p :: ps' ∧
      opBytes ix prev run ps = pixelBytes ix prev p ++ opBytes (ix.set (qoiHash p) p) p 0 ps') := by
  induction ps generalizing run with
  | nil =>
      rw [hend rfl] at hne
      exact absurd rfl hne
  | cons p ps ih =>
      by_cases hsame : p = prev
      case pos =>
        subst hsame
        have hshift : List.replicate run p ++ p :: ps = List.replicate (run + 1) p ++ ps := by
          rw [List.replicate_succ', List.append_assoc, List.singleton_append]
        rw [opBytes, if_pos rfl, hshift]
        by_cases hflush : run + 1 = 62 ∨ ps = []
        case pos =>
          rw [if_pos hflush]
          exact .inl ⟨run, ps, by omega, rfl, rfl⟩
        case neg =>
          rw [if_neg hflush]
          rcases ih (run + 1) (by omega) (fun hnil => absurd (.inr hnil) hflush) (by simp) with hop | ⟨hzero, -⟩
          case inl => exact .inl hop
          case inr => omega
      case neg =>
        rw [opBytes, if_neg hsame, runBytes]
        by_cases hzero : run = 0
        case pos =>
          rw [if_neg (by simpa using hzero), List.nil_append]
          exact .inr ⟨hzero, p, ps, rfl, rfl⟩
        case neg =>
          obtain ⟨t, rfl⟩ := Nat.exists_eq_succ_of_ne_zero hzero
          refine .inl ⟨t, p :: ps, by omega, ?_, rfl⟩
          rw [if_pos hzero, opBytes, if_neg hsame, runBytes, if_neg (by simp), List.nil_append]
          rfl

/-- The decoder stands where the pixels `ps` are ahead of it. -/
structure InStep (s : Buf) (d : Decoder) (ps : List Px) : Prop where
  ops : ∃ ix rest tail, ps = List.replicate d.run d.px ++ rest ∧
    ahead s d.p = opBytes ix d.px 0 rest ++ tail ∧ Agree ix d.ix d.px

theorem decodePixel_inStep {s : Buf} {d : Decoder} {ps : List Px} (o : ℕ) (h : InStep s d (p :: ps)) :
    ∃ d', decodePixel s o d = .ok d' ∧ d'.out = p.lay d.out o ∧ InStep s d' ps := by
  obtain ⟨ix, rest, tail, hps, hahead, hagree⟩ := h.ops
  by_cases hrun : d.run = 0
  case neg =>
    obtain ⟨run, hsucc⟩ := Nat.exists_eq_succ_of_ne_zero hrun
    rw [hsucc, List.replicate_succ, List.cons_append] at hps
    injection hps with hp hps
    refine ⟨{ d with run := run, out := p.lay d.out o }, ?_, rfl, ⟨ix, rest, tail, hps, hahead, hagree⟩⟩
    unfold decodePixel
    rw [if_pos hrun, hp, hsucc]
    rfl
  case pos =>
    rw [hrun, List.replicate_zero, List.nil_append] at hps
    subst hps
    rcases opBytes_next ix d.px 0 (p :: ps) (by omega) (fun _ => rfl) (by simp) with
      ⟨t, ps', ht, hop, heq⟩ | ⟨-, p', ps', heq, hop⟩
    case inl =>
      rw [List.replicate_zero, List.nil_append, List.replicate_succ, List.cons_append] at heq
      injection heq with hp hps
      rw [hop] at hahead
      obtain ⟨hlt, hb, hrest⟩ := ahead_eq_cons hahead
      obtain ⟨hrgb, hrgba, htag, hcount⟩ := runByte_fields t ht
      refine ⟨{ ix := d.ix.set (qoiHash d.px) d.px, px := d.px, p := d.p + 1, run := t, out := p.lay d.out o }, ?_, rfl,
        ⟨ix, ps', tail, hps, hrest, hagree.run⟩⟩
      have hdecode : decodeOp s (s d.p) { d with p := d.p + 1 } = .ok { d with p := d.p + 1, run := t } := by
        rw [hb, decodeOp, if_neg hrgb, if_neg hrgba, htag, if_neg (by decide), if_neg (by decide), if_neg (by decide),
          hcount]
      unfold decodePixel
      rw [if_neg (by simpa using hrun), if_neg (by simpa using hlt), hdecode, hp]
      rfl
    case inr =>
      injection heq with hp hps
      subst hp hps
      rw [hop, List.append_assoc] at hahead
      obtain ⟨b, d', hlt, hb, hdecode, hpx, hix, hrun', hout, hrest⟩ :=
        reads_pixel (s := s) (d := d) (fun hknown => hagree.known hknown) _ hahead
      refine ⟨{ d' with ix := d'.ix.set (qoiHash p) p, out := p.lay d.out o }, ?_, rfl,
        ⟨ix.set (qoiHash p) p, ps, tail, ?_, ?_, ?_⟩⟩
      · unfold decodePixel
        rw [if_neg (by simpa using hrun), if_neg (by simpa using hlt), hb, hdecode, ← hpx, ← hout]
        rfl
      · rw [hrun', hrun]
        rfl
      · rw [hpx]
        exact hrest
      · rw [hpx, hix]
        exact hagree.pixel p

theorem lay_at (p : Px) (m : Buf) (i : ℕ) : Px.at (p.lay m i) i = p := by
  simp [Px.at, Px.lay, Cells.set_apply]

theorem lay_outside (p : Px) (m : Buf) {i j : ℕ} (hout : i < j ∨ j + 4 ≤ i) : p.lay m j i = m i := by
  unfold Px.lay
  rw [Cells.set_of_ne _ _ (by omega), Cells.set_of_ne _ _ (by omega), Cells.set_of_ne _ _ (by omega),
    Cells.set_of_ne _ _ (by omega)]

theorem lay_other (p : Px) (m : Buf) {i j : ℕ} (hne : i ≠ j) : Px.at (p.lay m (4 * j)) (4 * i) = Px.at m (4 * i) := by
  unfold Px.at
  rw [lay_outside _ _ (by omega), lay_outside _ _ (by omega), lay_outside _ _ (by omega), lay_outside _ _ (by omega)]

theorem qoiOps_inStep {s : Buf} {count : ℕ} (out : Buf) (h : InStep s (decoderStart out) (pixels px count)) :
    ∃ out', qoiOps s out (4 * count) = .ok out' ∧ ∀ i < count, Px.at out' (4 * i) = Px.at px (4 * i) := by
  have hrun : ∀ j ≤ count, ∃ d, (List.range j).foldlM (fun d j => decodePixel s (4 * j) d) (decoderStart out) = .ok d ∧
      InStep s d ((pixels px count).drop j) ∧ ∀ i < j, Px.at d.out (4 * i) = Px.at px (4 * i) := by
    intro j
    induction j with
    | zero => exact fun _ => ⟨_, rfl, h, by simp⟩
    | succ j ih =>
        intro hle
        obtain ⟨d, hfold, hin, hdone⟩ := ih (by omega)
        rw [pixels_drop (by omega)] at hin
        obtain ⟨d', hstep, hout, hin'⟩ := decodePixel_inStep (4 * j) hin
        refine ⟨d', ?_, hin', fun i hi => ?_⟩
        · rw [List.range_succ, List.foldlM_append, hfold]
          simp only [List.foldlM_cons, List.foldlM_nil]
          change decodePixel s (4 * j) d >>= _ = _
          rw [hstep]
          rfl
        · rw [hout]
          by_cases hij : i = j
          case pos => rw [hij, lay_at]
          case neg => rw [lay_other _ _ hij, hdone i (by omega)]
  obtain ⟨d, hfold, -, hdone⟩ := hrun count (le_refl _)
  refine ⟨d.out, ?_, hdone⟩
  rw [qoiOps, show (4 * count + 3) / 4 = count by omega, hfold]
  rfl

/-! ### The head -/

theorem overlay_below {q i : ℕ} {m : Buf} (hlt : i < q) : overlay q bs m i = m i := if_neg (not_le.mpr hlt)

/-- The head's bytes. -/
def headBytes (w h : ℕ) (alpha : Bool) : List UInt8 :=
  [113, 111, 105, 102, u8 (w / 2 ^ 24), u8 (w / 2 ^ 16), u8 (w / 2 ^ 8), u8 (w / 2 ^ 0), u8 (h / 2 ^ 24),
    u8 (h / 2 ^ 16), u8 (h / 2 ^ 8), u8 (h / 2 ^ 0), if alpha then 4 else 3, 0]

theorem layHead_eq (w h : ℕ) (alpha : Bool) (m : Buf) : ∀ i < 14, layHead w h alpha m i = (headBytes w h alpha).getD i 0 := by
  intro i hi
  interval_cases i <;> rfl

/-- Four bytes, the weightiest first, make a word again. -/
theorem word_of_bytes {w : ℕ} (hw : w < 2 ^ 32) : (u8 (w / 2 ^ 24)).toNat * 2 ^ 24 + (u8 (w / 2 ^ 16)).toNat * 2 ^ 16 +
    (u8 (w / 2 ^ 8)).toNat * 2 ^ 8 + (u8 (w / 2 ^ 0)).toNat = w := by
  have h3 := u8_toNat (w / 2 ^ 24)
  have h2 := u8_toNat (w / 2 ^ 16)
  have h1 := u8_toNat (w / 2 ^ 8)
  have h0 := u8_toNat (w / 2 ^ 0)
  omega

theorem qoiHead_layHead {w h : ℕ} {alpha : Bool} {s : Buf} (hsize : 14 ≤ s.size)
    (hhead : ∀ i < 14, s i = (headBytes w h alpha).getD i 0) (hw : 1 ≤ w) (hh : 1 ≤ h) (harea : w * h ≤ 2 ^ 24) :
    qoiHead s = .ok (w, h) := by
  have hwle : w ≤ 2 ^ 24 := le_trans (Nat.le_mul_of_pos_right w hh) harea
  have hhle : h ≤ 2 ^ 24 := le_trans (Nat.le_mul_of_pos_left h hw) harea
  have hwidth : ld32be s 4 = w := by
    unfold ld32be
    rw [hhead 4 (by decide), hhead 5 (by decide), hhead 6 (by decide), hhead 7 (by decide)]
    exact word_of_bytes (by omega)
  have hheight : ld32be s 8 = h := by
    unfold ld32be
    rw [hhead 8 (by decide), hhead 9 (by decide), hhead 10 (by decide), hhead 11 (by decide)]
    exact word_of_bytes (by omega)
  unfold qoiHead
  rw [hhead 0 (by decide), hhead 1 (by decide), hhead 2 (by decide), hhead 3 (by decide), hhead 12 (by decide),
    hhead 13 (by decide), if_neg]
  · dsimp only
    rw [hwidth, hheight, if_neg (by omega), if_neg (by omega)]
  · simp only [headBytes, List.getD_cons_succ, List.getD_cons_zero]
    cases alpha <;> simp <;> omega

theorem layHead_size (w h : ℕ) (alpha : Bool) (m : Buf) : (layHead w h alpha m).size = m.size := by
  rw [layHead]
  exact upto_invariant (fun _ (t : Buf) => t.size = m.size) rfl fun _ _ _ ht => ht

theorem overlay_size (q : ℕ) (bs : List UInt8) (m : Buf) : (overlay q bs m).size = m.size := rfl

theorem layHead_outside (w h : ℕ) (alpha : Bool) (m : Buf) {i : ℕ} (hge : 14 ≤ i) : layHead w h alpha m i = m i := by
  simp only [layHead, upto]
  repeat rw [Cells.set_of_ne _ _ (by omega)]

/-- The file of a picture. -/
def file (px : Buf) (w h : ℕ) : List UInt8 := headBytes w h (alphaOf px (w * h)) ++ stream px (w * h)

theorem file_length (px : Buf) (w h : ℕ) : (file px w h).length = 14 + (stream px (w * h)).length := by
  rw [file, List.length_append]
  rfl

theorem overlay_file (px : Buf) (w h : ℕ) (o : Buf) (i : ℕ) :
    overlay 14 (stream px (w * h)) (layHead w h (alphaOf px (w * h)) o) i =
      if i < (file px w h).length then (file px w h).getD i 0 else o i := by
  rw [file_length]
  by_cases hhead : i < 14
  case pos =>
    rw [overlay_below hhead, layHead_eq _ _ _ _ _ hhead, if_pos (by omega), file,
      List.getD_append _ _ _ _ (by exact hhead)]
  case neg =>
    rw [overlay]
    dsimp only
    rw [if_pos (by omega), layHead_outside _ _ _ _ (by omega)]
    by_cases hin : i < 14 + (stream px (w * h)).length
    case pos =>
      rw [if_pos hin, file, List.getD_append_right _ _ _ _ (by exact not_lt.mp hhead)]
      rw [List.getD_eq_getElem _ _ (by omega)]
      exact (List.getD_eq_getElem _ _ _).symm
    case neg =>
      rw [if_neg hin, List.getD_eq_default _ _ (by omega)]

theorem ahead_file {s : Buf} {w h : ℕ} (hsize : s.size = (file px w h).length)
    (hbytes : ∀ i < (file px w h).length, s i = (file px w h).getD i 0) : ahead s 14 = stream px (w * h) := by
  rw [file_length] at hsize hbytes
  apply List.ext_getElem
  case hl => rw [ahead, List.length_map, List.length_range, hsize, Nat.add_sub_cancel_left]
  case h =>
    intro i hi hi'
    have hbyte := hbytes (14 + i) (by omega)
    rw [file, List.getD_append_right _ _ _ _ (by exact Nat.le_add_right 14 i)] at hbyte
    simp only [ahead, List.getElem_map, List.getElem_range]
    rw [hbyte]
    change (stream px (w * h)).getD (14 + i - 14) 0 = _
    rw [Nat.add_sub_cancel_left, List.getD_eq_getElem _ _ hi']

theorem file_reads {s : Buf} {w h : ℕ} (hw : 1 ≤ w) (hh : 1 ≤ h) (harea : w * h ≤ 2 ^ 24)
    (hsize : s.size = (file px w h).length)
    (hbytes : ∀ i < (file px w h).length, s i = (file px w h).getD i 0) :
    qoiHead s = .ok (w, h) ∧
      ∀ out : Buf, ∃ out', qoiOps s out (w * h * 4) = .ok out' ∧ ∀ i < w * h * 4, out' i = px i := by
  have hlen := file_length px w h
  constructor
  case left =>
    have hhead : ∀ i < 14, s i = (headBytes w h (alphaOf px (w * h))).getD i 0 := by
      intro i hi
      rw [hbytes i (by omega), file, List.getD_append _ _ _ _ (by exact hi)]
    exact qoiHead_layHead (by omega) hhead hw hh harea
  case right =>
    intro out
    have hstart : InStep s (decoderStart out) (pixels px (w * h)) :=
      ⟨_, pixels px (w * h), [0, 0, 0, 0, 0, 0, 0, 1], rfl, ahead_file hsize hbytes, Agree.start⟩
    obtain ⟨out', hops, hpixels⟩ := qoiOps_inStep out hstart
    refine ⟨out', by rw [Nat.mul_comm (w * h) 4]; exact hops, fun i hi => ?_⟩
    have hpixel := hpixels (i / 4) (by omega)
    injection hpixel with h0 h1 h2 h3
    have hi4 : i = 4 * (i / 4) ∨ i = 4 * (i / 4) + 1 ∨ i = 4 * (i / 4) + 2 ∨ i = 4 * (i / 4) + 3 := by
      omega
    rcases hi4 with heq | heq | heq | heq <;> rw [heq]
    case inl => exact h0
    case inr.inl => exact h1
    case inr.inr.inl => exact h2
    case inr.inr.inr => exact h3

/-- A picture encoded is read back whole; the sizing run counts the bytes that the writing run lays, all of them and
no others. -/
theorem qoi_roundtrip {w h : ℕ} (px : Buf) (hw : 1 ≤ w) (hh : 1 ≤ h) (harea : w * h ≤ 2 ^ 24) :
    ∃ bytes : List UInt8, (qoiEnc px w h none).q = bytes.length ∧
      ∀ o : Buf, o.size = bytes.length → ∃ s, (qoiEnc px w h (some o)).q = bytes.length ∧
        (qoiEnc px w h (some o)).o = some s ∧ s.size = bytes.length ∧
        (∀ i, s i = if i < bytes.length then bytes.getD i 0 else o i) ∧ qoiHead s = .ok (w, h) ∧
        ∀ out : Buf, ∃ out', qoiOps s out (w * h * 4) = .ok out' ∧ ∀ i < w * h * 4, out' i = px i := by
  have hsizing := (written_qoiEnc px w h none).q
  rw [← file_length] at hsizing
  refine ⟨file px w h, hsizing, ?_⟩
  intro o hsize
  have hwriting := written_qoiEnc px w h (some o)
  have hq := hwriting.q
  have ho := hwriting.o
  rw [← file_length] at hq
  have hbytes := overlay_file px w h o
  have hlen : (overlay 14 (stream px (w * h)) (layHead w h (alphaOf px (w * h)) o)).size = (file px w h).length := by
    rw [overlay_size, layHead_size, hsize]
  rw [Option.map_some, Option.map_some] at ho
  generalize overlay 14 (stream px (w * h)) (layHead w h (alphaOf px (w * h)) o) = s at hbytes hlen ho
  have hreads := file_reads hw hh harea hlen (fun i hi => by rw [hbytes, if_pos hi])
  exact ⟨s, hq, ho, hlen, hbytes, hreads⟩

theorem qoi_roundtrip_two :
    ∃ s : Buf, s.size = 24 ∧ (qoiEnc (Cells.fill 8 0) 2 1 (some (Cells.fill 24 7))).o = some s ∧ qoiHead s = .ok (2, 1) ∧
      ∀ out : Buf, ∃ out', qoiOps s out 8 = .ok out' ∧ ∀ i < 8, out' i = 0 := by
  obtain ⟨bytes, hq, hwrite⟩ :=
    qoi_roundtrip (Cells.fill 8 0) (show 1 ≤ 2 by decide) (show 1 ≤ 1 by decide) (by decide)
  have hlen : (qoiEnc (Cells.fill 8 0) 2 1 none).q = 24 := by decide
  rw [hlen] at hq
  obtain ⟨s, -, ho, hsize, -, hhead, hops⟩ := hwrite (Cells.fill 24 7) hq
  exact ⟨s, by rw [hsize, hq], ho, hhead, hops⟩

end LoveRuntime.Qoi
