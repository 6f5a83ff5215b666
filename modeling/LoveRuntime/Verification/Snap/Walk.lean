import LoveRuntime.Model.Snap.Walk

/-! The walk stays in its chunk just when no head stands where its own length words pass the end. -/

namespace LoveRuntime.Snap

open Checked

/-! ### Inside the chunk -/

section Inside

variable {c : Chunk} {m : Pool} {i : ℕ} {v : Word}

theorem Chunk.rd_ok (hlo : c.lo ≤ i) (hhi : i < c.hi) (hm : c.hi ≤ m.size) : c.rd m i = .ok (m i) := by
  unfold Chunk.rd
  rw [if_pos ⟨hlo, hhi⟩]
  exact rd_of_lt (by omega)

theorem Chunk.rd_wild (h : c.hi ≤ i) : c.rd m i = .error .wild := if_neg (by omega)

theorem Chunk.wr_ok (hlo : c.lo ≤ i) (hhi : i < c.hi) (hm : c.hi ≤ m.size) : c.wr m i v = .ok (m.set i v) := by
  unfold Chunk.wr
  rw [if_pos ⟨hlo, hhi⟩]
  exact wr_of_lt (by omega) v

theorem Chunk.wr_wild (h : c.hi ≤ i) : c.wr m i v = .error .wild := if_neg (by omega)

/-- Two pools that agree outside the words of `c`. -/
def Framed (c : Chunk) (m m' : Pool) : Prop :=
  m'.size = m.size ∧ ∀ i, i < c.lo ∨ c.hi ≤ i → m' i = m i

theorem Framed.refl (c : Chunk) (m : Pool) : Framed c m m := ⟨rfl, fun _ _ => rfl⟩

theorem Framed.trans {m₁ m₂ m₃ : Pool} (h : Framed c m₁ m₂) (h' : Framed c m₂ m₃) : Framed c m₁ m₃ :=
  ⟨h'.1.trans h.1, fun i hi => (h'.2 i hi).trans (h.2 i hi)⟩

theorem Framed.set (hlo : c.lo ≤ i) (hhi : i < c.hi) : Framed c m (m.set i v) :=
  ⟨rfl, fun j hj => Cells.set_of_ne m v (by omega)⟩

end Inside

/-! ### An object's extent -/

/-- The product of `k` shape words. -/
def shapeCount (m : Pool) (i : ℕ) : ℕ → ℕ → ℕ
  | 0, n => n
  | k + 1, n => shapeCount m (i + 1) k (mulsat n (m i).toNat)

/-- A tray's element count, off the words at `off`. -/
def elems (m : Pool) (off : ℕ) : ℕ := shapeCount m (off + 3) (m (off + 2)).toNat 1

/-- The bytes of a tray whose type is one. -/
def trayExtent (t rank n : ℕ) : ℕ :=
  if wordsMax ≤ n then (wordsMax + 1) * 8
  else (24 + rank * 8 + n * if t % 2 ^ 32 = 2 then 16 else 8) % 2 ^ 64

/-- The words of a data object, off its length words. -/
def datExtent (m : Pool) (off : ℕ) : Dat → ℕ
  | .string => strWidth (m (off + 1))
  | .big => b2w (bigBytes (m (off + 1)))
  | .tray => b2w (trayExtent (m (off + 1)).toNat (m (off + 2)).toNat (elems m off))
  | .mint => 2
  | .gem => 2
  | _ => 3

/-- The words up to a thread's terminator, from its word `k` on. -/
def threadExtent (m : Pool) (off : ℕ) : ℕ → ℕ → Option ℕ
  | 0, _ => none
  | fuel + 1, k => if m (off + k) = UInt64.ofNat (off * 8 + 2) then some (k + 1) else threadExtent m off fuel (k + 1)

/-- The words of the object at `off`, where there is one within the chunk. -/
def extent (x : Binary) (d : Dec) (c : Chunk) (ci : ℕ) (m : Pool) (off : ℕ) : Option ℕ :=
  if m off = UInt64.ofNat (imageIdxBase + 2 * ci) then some 3
  else
    match x.dat (imgDecode x d (m off)).1 with
    | some k => if datExtent m off k = 0 ∨ c.hi - off < datExtent m off k then none else some (datExtent m off k)
    | none => threadExtent m off (c.hi - off - 1) 1

/-- Where a data object's length words and its elements must stand. -/
def DatFits (c : Chunk) (m : Pool) (off : ℕ) : Dat → Prop
  | .string => off + 2 ≤ c.hi
  | .big => off + 2 ≤ c.hi
  | .tray => off + 3 + (m (off + 2)).toNat ≤ c.hi ∧
      (elems m off < wordsMax → (m (off + 1)).toNat % 2 ^ 32 < 4) ∧
      (m (off + 1) = 3 → datExtent m off .tray ≠ 0 → datExtent m off .tray ≤ c.hi - off →
        off + 3 + (m (off + 2)).toNat + elems m off ≤ c.hi)
  | _ => True

/-- What the object at `off` needs of the chunk's end. -/
def HeadFits (x : Binary) (d : Dec) (c : Chunk) (ci : ℕ) (m : Pool) (off : ℕ) : Prop :=
  if m off = UInt64.ofNat (imageIdxBase + 2 * ci) then off + 3 ≤ c.hi
  else ∀ k, x.dat (imgDecode x d (m off)).1 = some k → DatFits c m off k

section Ahead

variable {m m' : Pool} {off : ℕ}

theorem shapeCount_congr {i k : ℕ} (h : ∀ j, i ≤ j → m' j = m j) (n : ℕ) :
    shapeCount m' i k n = shapeCount m i k n := by
  induction k generalizing i n with
  | zero => rfl
  | succ k ih =>
      unfold shapeCount
      rw [h i le_rfl]
      exact ih (fun j hj => h j (by omega)) _

theorem elems_congr (h : ∀ j, off < j → m' j = m j) : elems m' off = elems m off := by
  unfold elems
  rw [h _ (by omega)]
  exact shapeCount_congr (fun j hj => h j (by omega)) 1

theorem datExtent_congr (h : ∀ j, off < j → m' j = m j) (k : Dat) : datExtent m' off k = datExtent m off k := by
  unfold datExtent
  rw [h _ (by omega), h _ (by omega), elems_congr h]

theorem threadExtent_congr {fuel k : ℕ} (h : ∀ j, off + k ≤ j → m' j = m j) :
    threadExtent m' off fuel k = threadExtent m off fuel k := by
  induction fuel generalizing k with
  | zero => rfl
  | succ fuel ih =>
      unfold threadExtent
      rw [h _ le_rfl, ih fun j hj => h j (by omega)]

theorem DatFits_congr {c : Chunk} (h : ∀ j, off < j → m' j = m j) (k : Dat) :
    DatFits c m' off k ↔ DatFits c m off k := by
  unfold DatFits
  rw [h _ (by omega), h _ (by omega), elems_congr h, datExtent_congr h]

end Ahead

/-! ### One object -/

section Step

variable {x : Binary} {d : Dec} {c : Chunk} {m : Pool} {s : Walk} {i k n ci : ℕ}

/-- An object of `n` words went by. -/
structure Laid (c : Chunk) (s : Walk) (n : ℕ) (s' : Walk) : Prop where
  frame : Framed c s.m s'.m
  off : s'.off = s.off + n
  pos : 0 < n
  le : s.off + n ≤ c.hi

/-- A lane goes past an object of the extent, or refuses where there is none. -/
def Steps (c : Chunk) (s : Walk) (r : Except Stop Walk) : Option ℕ → Prop
  | some n => ∃ s', r = .ok s' ∧ Laid c s n s'
  | none => r = .error .refused

theorem decodeAt_ok {t : Pool × Bool} (hlo : c.lo ≤ i) (hhi : i < c.hi) (hm : c.hi ≤ t.1.size) :
    decodeAt x d c t i = .ok (t.1.set i (imgDecode x d (t.1 i)).1, t.2 || (imgDecode x d (t.1 i)).2) := by
  unfold decodeAt
  rw [Chunk.rd_ok hlo hhi hm, ok_bind, Chunk.wr_ok hlo hhi hm]
  rfl

theorem decodeAt_wild {t : Pool × Bool} (h : c.hi ≤ i) : decodeAt x d c t i = .error .wild := by
  unfold decodeAt
  rw [Chunk.rd_wild h]
  rfl

theorem chainLane_steps (hlo : c.lo ≤ s.off) (hfit : s.off + 3 ≤ c.hi) (hm : c.hi ≤ s.m.size) :
    Steps c s (chainLane x d c s) (some 3) := by
  unfold chainLane
  rw [Chunk.wr_ok hlo (by omega) hm, ok_bind, decodeAt_ok (by omega) (by omega) hm, ok_bind,
    decodeAt_ok (by omega) (by omega) hm]
  have hhead : Framed c s.m (s.m.set s.off x.chainAp) := Framed.set hlo (by omega)
  exact ⟨_, rfl, (hhead.trans (Framed.set (by omega) (by omega))).trans (Framed.set (by omega) (by omega)), rfl,
    by omega, hfit⟩

theorem chainLane_wild (hlo : c.lo ≤ s.off) (hhi : s.off < c.hi) (hfit : ¬s.off + 3 ≤ c.hi) (hm : c.hi ≤ s.m.size) :
    chainLane x d c s = .error .wild := by
  unfold chainLane
  rw [Chunk.wr_ok hlo hhi hm, ok_bind]
  by_cases hnext : s.off + 1 < c.hi
  case neg =>
    rw [decodeAt_wild (by omega)]
    rfl
  case pos =>
    rw [decodeAt_ok (by omega) hnext hm, ok_bind, decodeAt_wild (by omega)]
    rfl

theorem trayNelem_ok (hlo : c.lo ≤ i) (hhi : i + k ≤ c.hi) (hm : c.hi ≤ m.size) (n : ℕ) :
    trayNelem c m i k n = .ok (shapeCount m i k n) := by
  induction k generalizing i n with
  | zero => rfl
  | succ k ih =>
      unfold trayNelem
      rw [Chunk.rd_ok hlo (by omega) hm, ok_bind]
      exact ih (by omega) (by omega) _

theorem trayNelem_wild (hlo : c.lo ≤ i) (hhi : ¬i + k ≤ c.hi) (hi : i ≤ c.hi) (hm : c.hi ≤ m.size) (n : ℕ) :
    trayNelem c m i k n = .error .wild := by
  induction k generalizing i n with
  | zero => exact absurd hi hhi
  | succ k ih =>
      unfold trayNelem
      by_cases hin : i < c.hi
      case pos =>
        rw [Chunk.rd_ok hlo hin hm, ok_bind]
        exact ih (by omega) (by omega) hin _
      case neg =>
        rw [Chunk.rd_wild (by omega)]
        rfl

theorem trayBytes_ok {t rank n : ℕ} (h : n < wordsMax → t % 2 ^ 32 < 4) :
    trayBytes t rank n = .ok (trayExtent t rank n) := by
  unfold trayBytes trayExtent
  split
  case isTrue hbig => rfl
  case isFalse hsmall =>
    have ht := h (by omega)
    unfold loveT
    rw [if_pos ht]
    split
    case isTrue htwo => rfl
    case isFalse htwo => rfl

theorem trayBytes_wild {t rank n : ℕ} (h : ¬(n < wordsMax → t % 2 ^ 32 < 4)) :
    trayBytes t rank n = .error .wild := by
  obtain ⟨hn, ht⟩ := Classical.not_imp.mp h
  unfold trayBytes loveT
  rw [if_neg (by omega), if_neg (by omega), if_neg ht]
  rfl

theorem imageDatasize_tray (hlo : c.lo ≤ i) (hhi : i < c.hi) (hm : c.hi ≤ m.size) (h : DatFits c m i .tray) :
    imageDatasize c m i .tray = .ok (datExtent m i .tray) := by
  obtain ⟨hshape, htype, -⟩ := h
  rw [imageDatasize, Chunk.rd_ok (by omega) (by omega) hm, ok_bind, Chunk.rd_ok (by omega) (by omega) hm, ok_bind,
    trayNelem_ok (by omega) hshape hm, ok_bind]
  change (trayBytes _ _ (elems m i) >>= _) = _
  rw [trayBytes_ok htype]
  rfl

/-- `n` words decoded from `i` on. -/
def decodeAll (x : Binary) (d : Dec) (c : Chunk) (i n : ℕ) (t : Pool × Bool) : Except Stop (Pool × Bool) :=
  (List.range n).foldlM (fun t j => decodeAt x d c t (i + j)) t

theorem decodeAll_succ (t : Pool × Bool) :
    decodeAll x d c i (n + 1) t = decodeAt x d c t i >>= decodeAll x d c (i + 1) n := by
  have hshift : (fun (t : Pool × Bool) j => decodeAt x d c t (i + (j + 1))) =
      fun t j => decodeAt x d c t (i + 1 + j) := by
    funext t j
    rw [Nat.add_right_comm, Nat.add_assoc]
  unfold decodeAll
  rw [List.range_succ_eq_map, List.foldlM_cons]
  simp only [List.foldlM_map, Nat.succ_eq_add_one, hshift, Nat.add_zero]

theorem decodeAll_framed {t : Pool × Bool} (hlo : c.lo ≤ i) (hhi : i + n ≤ c.hi) (hm : c.hi ≤ t.1.size) :
    ∃ t', decodeAll x d c i n t = .ok t' ∧ Framed c t.1 t'.1 := by
  induction n generalizing i t with
  | zero => exact ⟨t, rfl, Framed.refl c t.1⟩
  | succ n ih =>
      rw [decodeAll_succ, decodeAt_ok hlo (by omega) hm, ok_bind]
      have hhead : Framed c t.1 (t.1.set i (imgDecode x d (t.1 i)).1) := Framed.set hlo (by omega)
      obtain ⟨t', hrun, hrest⟩ := ih (i := i + 1) (t := (_, t.2 || (imgDecode x d (t.1 i)).2))
        (by omega) (by omega) (hm.trans_eq hhead.1.symm)
      exact ⟨t', hrun, hhead.trans hrest⟩

theorem decodeAll_wild {t : Pool × Bool} (hlo : c.lo ≤ i) (hi : i ≤ c.hi) (hhi : ¬i + n ≤ c.hi)
    (hm : c.hi ≤ t.1.size) : decodeAll x d c i n t = .error .wild := by
  induction n generalizing i t with
  | zero => exact absurd hi hhi
  | succ n ih =>
      rw [decodeAll_succ]
      by_cases hin : i < c.hi
      case pos =>
        rw [decodeAt_ok (by omega) (by omega) hm, ok_bind]
        exact ih (by omega) hin (by omega) hm
      case neg =>
        rw [decodeAt_wild (by omega)]
        rfl

/-- The data lane's extent. -/
def dataExtent (c : Chunk) (m : Pool) (off : ℕ) (k : Dat) : Option ℕ :=
  if datExtent m off k = 0 ∨ c.hi - off < datExtent m off k then none else some (datExtent m off k)

theorem sized_steps {n : ℕ} {f : Except Stop Walk} (hf : n ≠ 0 → n ≤ c.hi - s.off → Steps c s f (some n)) :
    Steps c s (if n = 0 ∨ c.hi - s.off < n then .error .refused else f)
      (if n = 0 ∨ c.hi - s.off < n then none else some n) := by
  split
  case isTrue h => rfl
  case isFalse h => exact hf (by omega) (by omega)

theorem plain_steps {n : ℕ} (hhi : s.off < c.hi) (h0 : n ≠ 0) (hn : n ≤ c.hi - s.off) :
    Steps c s (.ok { s with off := s.off + n }) (some n) :=
  ⟨_, rfl, Framed.refl _ s.m, rfl, by omega, by omega⟩

theorem dataLane_steps {k : Dat} (hlo : c.lo ≤ s.off) (hhi : s.off < c.hi) (hm : c.hi ≤ s.m.size)
    (hfit : DatFits c s.m s.off k) : Steps c s (dataLane x d c s k) (dataExtent c s.m s.off k) := by
  unfold dataLane dataExtent
  cases k
  case nom =>
    apply sized_steps
    intro h0 hn
    change 3 ≤ c.hi - s.off at hn
    rw [decodeAt_ok (by omega) (by omega) hm]
    exact ⟨_, rfl, Framed.set (by omega) (by omega), rfl, by omega, by omega⟩
  case tray =>
    rw [imageDatasize_tray hlo hhi hm hfit, ok_bind]
    apply sized_steps
    intro h0 hn
    obtain ⟨hshape, -, helems⟩ := hfit
    dsimp only
    rw [Chunk.rd_ok (by omega) (by omega) hm, ok_bind]
    split
    case isTrue hobj =>
      have hend := helems hobj h0 hn
      rw [Chunk.rd_ok (by omega) (by omega) hm, ok_bind, trayNelem_ok (by omega) hshape hm, ok_bind]
      obtain ⟨t, hrun, hframe⟩ := decodeAll_framed (x := x) (d := d) (t := (s.m, s.bad)) (by omega) hend hm
      change Steps c s (decodeAll x d c _ (elems s.m s.off) (s.m, s.bad) >>= _) _
      rw [hrun]
      exact ⟨_, rfl, hframe, rfl, by omega, by omega⟩
    case isFalse hraw => exact plain_steps hhi h0 hn
  case string =>
    unfold DatFits at hfit
    rw [imageDatasize, Chunk.rd_ok (by omega) (by omega) hm]
    exact sized_steps fun h0 hn => plain_steps hhi h0 hn
  case big =>
    unfold DatFits at hfit
    rw [imageDatasize, Chunk.rd_ok (by omega) (by omega) hm]
    exact sized_steps fun h0 hn => plain_steps hhi h0 hn
  all_goals exact sized_steps fun h0 hn => plain_steps hhi h0 hn

theorem dataLane_tray_wild (hlo : c.lo ≤ s.off) (hhi : s.off < c.hi) (hm : c.hi ≤ s.m.size)
    (hfit : ¬DatFits c s.m s.off .tray) : dataLane x d c s .tray = .error .wild := by
  unfold dataLane
  rw [imageDatasize]
  by_cases htype : s.off + 1 < c.hi
  case neg =>
    rw [Chunk.rd_wild (by omega)]
    rfl
  case pos =>
    rw [Chunk.rd_ok (by omega) htype hm, ok_bind]
    by_cases hrank : s.off + 2 < c.hi
    case neg =>
      rw [Chunk.rd_wild (by omega)]
      rfl
    case pos =>
      rw [Chunk.rd_ok (by omega) hrank hm, ok_bind]
      by_cases hshape : s.off + 3 + (s.m (s.off + 2)).toNat ≤ c.hi
      case neg =>
        rw [trayNelem_wild (by omega) hshape (by omega) hm]
        rfl
      case pos =>
        rw [trayNelem_ok (by omega) hshape hm, ok_bind]
        change (trayBytes _ _ (elems s.m s.off) >>= _ >>= _) = _
        by_cases hT : elems s.m s.off < wordsMax → (s.m (s.off + 1)).toNat % 2 ^ 32 < 4
        case neg =>
          rw [trayBytes_wild hT]
          rfl
        case pos =>
          have helems := Classical.not_imp.mp fun h => hfit ⟨hshape, hT, h⟩
          obtain ⟨hobj, hrest⟩ := helems
          obtain ⟨hn0, hrest⟩ := Classical.not_imp.mp hrest
          obtain ⟨hn, hend⟩ := Classical.not_imp.mp hrest
          rw [trayBytes_ok hT, ok_bind, ok_bind]
          change (if datExtent s.m s.off .tray = 0 ∨ c.hi - s.off < datExtent s.m s.off .tray then _ else _) = _
          rw [if_neg (by omega)]
          dsimp only
          rw [ok_bind, if_pos hobj, ok_bind, trayNelem_ok (by omega) hshape hm, ok_bind]
          change (decodeAll x d c _ (elems s.m s.off) (s.m, s.bad) >>= _) = _
          rw [decodeAll_wild (by omega) hshape hend hm]
          rfl

theorem dataLane_wild {k : Dat} (hlo : c.lo ≤ s.off) (hhi : s.off < c.hi) (hm : c.hi ≤ s.m.size)
    (hfit : ¬DatFits c s.m s.off k) : dataLane x d c s k = .error .wild := by
  cases k
  case tray => exact dataLane_tray_wild hlo hhi hm hfit
  case string =>
    unfold DatFits at hfit
    unfold dataLane
    rw [imageDatasize, Chunk.rd_wild (by omega)]
    rfl
  case big =>
    unfold DatFits at hfit
    unfold dataLane
    rw [imageDatasize, Chunk.rd_wild (by omega)]
    rfl
  all_goals exact absurd trivial hfit

/-- The thread lanes keep to the chunk whatever its words are: each word is bounded before it is read. -/
theorem threadLane_steps (x : Binary) (d : Dec) (w0 : Word) (native : Bool) (fuel : ℕ) {off : ℕ} {t : Pool × Bool}
    (hlo : c.lo ≤ off) (hfuel : off + k + fuel ≤ c.hi) (hm : c.hi ≤ t.1.size) (hk : 0 < k) :
    Steps c { m := t.1, off := off, bad := t.2 } (threadLane x d c w0 native off fuel k t)
      (threadExtent t.1 off fuel k) := by
  induction fuel generalizing k t with
  | zero => rfl
  | succ fuel ih =>
      -- one word written at `k`, the rest of the thread ahead of it
      have hnext : ∀ (v : Word) (bad : Bool),
          Steps c { m := t.1, off := off, bad := t.2 }
            (threadLane x d c w0 native off fuel (k + 1) (t.1.set (off + k) v, bad))
            (threadExtent t.1 off fuel (k + 1)) := by
        intro v bad
        have hrest := ih (k := k + 1) (t := (t.1.set (off + k) v, bad)) (by omega) hm (by omega)
        rw [threadExtent_congr fun j hj => Cells.set_of_ne t.1 v (by omega)] at hrest
        cases hn : threadExtent t.1 off fuel (k + 1) with
        | none =>
            rw [hn] at hrest
            exact hrest
        | some n =>
            rw [hn] at hrest
            obtain ⟨s', hrun, hlaid⟩ := hrest
            exact ⟨s', hrun, (Framed.set (by omega) (by omega)).trans hlaid.frame, hlaid.off, hlaid.pos, hlaid.le⟩
      unfold threadLane threadExtent
      rw [Chunk.rd_ok (by omega) (by omega) hm, ok_bind]
      split
      case isTrue hterm =>
        rw [Chunk.wr_ok (by omega) (by omega) hm]
        exact ⟨_, rfl, Framed.set (by omega) (by omega), rfl, by omega, by simp only; omega⟩
      case isFalse hterm =>
        split
        case isTrue htwin =>
          rw [Chunk.wr_ok (by omega) (by omega) hm]
          exact hnext _ _
        case isFalse htwin =>
          rw [decodeAt_ok (by omega) (by omega) hm]
          exact hnext _ _

theorem imgStep_steps (hlo : c.lo ≤ s.off) (hhi : s.off < c.hi) (hm : c.hi ≤ s.m.size)
    (hfit : HeadFits x d c ci s.m s.off) : Steps c s (imgStep x d c ci s) (extent x d c ci s.m s.off) := by
  unfold imgStep extent
  unfold HeadFits at hfit
  rw [Chunk.rd_ok hlo hhi hm, ok_bind]
  split
  case isTrue hchain =>
    rw [if_pos hchain] at hfit
    exact chainLane_steps hlo hfit hm
  case isFalse hchain =>
    rw [if_neg hchain] at hfit
    rw [decodeAt_ok hlo hhi hm, ok_bind]
    have hpast : ∀ v, ∀ j, s.off < j → s.m.set s.off v j = s.m j := fun v j hj => Cells.set_of_ne s.m v (by omega)
    have hback : ∀ v bad r e, Steps c { m := s.m.set s.off v, off := s.off, bad := bad } r e → Steps c s r e := by
      intro v bad r e h
      cases e with
      | none => exact h
      | some n =>
          obtain ⟨s', hrun, hlaid⟩ := h
          exact ⟨s', hrun, (Framed.set hlo hhi).trans hlaid.frame, hlaid.off, hlaid.pos, hlaid.le⟩
    cases hdat : x.dat (imgDecode x d (s.m s.off)).1 with
    | some k =>
        apply hback
        have hlane := dataLane_steps (x := x) (d := d)
          (s := ⟨s.m.set s.off (imgDecode x d (s.m s.off)).1, s.off, s.bad || (imgDecode x d (s.m s.off)).2⟩)
          hlo hhi hm ((DatFits_congr (hpast _) k).mpr (hfit k hdat))
        unfold dataExtent at hlane
        simp only [datExtent_congr (hpast _)] at hlane
        exact hlane
    | none =>
        apply hback
        have hlane := threadLane_steps x d (s.m s.off)
          (d.lazy && (s.m s.off).toNat % 2 == 0 && decide (x.codeBase ≤ (s.m s.off).toNat)) (c.hi - s.off - 1) (k := 1)
          (t := (s.m.set s.off (imgDecode x d (s.m s.off)).1, s.bad || (imgDecode x d (s.m s.off)).2))
          hlo (by omega) hm Nat.one_pos
        rw [threadExtent_congr fun j hj => hpast _ j (by omega)] at hlane
        exact hlane

theorem imgStep_wild (hlo : c.lo ≤ s.off) (hhi : s.off < c.hi) (hm : c.hi ≤ s.m.size)
    (hfit : ¬HeadFits x d c ci s.m s.off) : imgStep x d c ci s = .error .wild := by
  unfold imgStep
  unfold HeadFits at hfit
  rw [Chunk.rd_ok hlo hhi hm, ok_bind]
  split
  case isTrue hchain =>
    rw [if_pos hchain] at hfit
    exact chainLane_wild hlo hhi hfit hm
  case isFalse hchain =>
    rw [if_neg hchain] at hfit
    rw [decodeAt_ok hlo hhi hm, ok_bind]
    have hpast : ∀ v, ∀ j, s.off < j → s.m.set s.off v j = s.m j := fun v j hj => Cells.set_of_ne s.m v (by omega)
    obtain ⟨k, hk⟩ := not_forall.mp hfit
    obtain ⟨hdat, hfit⟩ := Classical.not_imp.mp hk
    rw [hdat]
    exact dataLane_wild hlo hhi hm fun h => hfit ((DatFits_congr (hpast _) k).mp h)

end Step

/-! ### The whole walk -/

section Run

variable {x : Binary} {d : Dec} {c : Chunk} {m : Pool} {ci : ℕ}

/-- A state of the walk, and the objects it has gone past, each its head and its words. -/
inductive Walked (x : Binary) (d : Dec) (c : Chunk) (ci : ℕ) (m : Pool) : List (ℕ × ℕ) → Walk → Prop
  | start : Walked x d c ci m [] { m := m, off := c.lo, bad := false }
  | object {spans : List (ℕ × ℕ)} {s s' : Walk} {n : ℕ} (before : Walked x d c ci m spans s) (inside : s.off < c.hi)
      (size : extent x d c ci s.m s.off = some n) (step : imgStep x d c ci s = .ok s') :
      Walked x d c ci m (spans ++ [(s.off, n)]) s'

/-- The spans stand one after another from `lo` to `hi`, none empty. -/
def Tile : ℕ → List (ℕ × ℕ) → ℕ → Prop
  | lo, [], hi => lo = hi
  | lo, s :: spans, hi => s.1 = lo ∧ 0 < s.2 ∧ Tile (lo + s.2) spans hi

theorem Tile.snoc {lo off n : ℕ} {spans : List (ℕ × ℕ)} (h : Tile lo spans off) (hn : 0 < n) :
    Tile lo (spans ++ [(off, n)]) (off + n) := by
  induction spans generalizing lo with
  | nil =>
      cases h
      exact ⟨rfl, hn, rfl⟩
  | cons s spans ih => exact ⟨h.1, h.2.1, ih h.2.2⟩

/-- What holds of every state the walk is in, wherever its heads stand. -/
structure Held (c : Chunk) (m : Pool) (spans : List (ℕ × ℕ)) (s : Walk) : Prop where
  frame : Framed c m s.m
  tile : Tile c.lo spans s.off
  lo : c.lo ≤ s.off
  hi : s.off ≤ c.hi

theorem Held.step {spans : List (ℕ × ℕ)} {s s' : Walk} {n : ℕ} (h : Held c m spans s) (hlaid : Laid c s n s') :
    Held c m (spans ++ [(s.off, n)]) s' where
  frame := h.frame.trans hlaid.frame
  tile := by
    rw [hlaid.off]
    exact h.tile.snoc hlaid.pos
  lo := by
    rw [hlaid.off]
    exact h.lo.trans (Nat.le_add_right _ _)
  hi := by
    rw [hlaid.off]
    exact hlaid.le

/-- A step that ends goes past the object whose extent it read, if its head fits. -/
theorem imgStep_cases (x : Binary) (d : Dec) (ci : ℕ) {s : Walk} (hlo : c.lo ≤ s.off) (hhi : s.off < c.hi) (hm : c.hi ≤ s.m.size) :
    (∃ n s', HeadFits x d c ci s.m s.off ∧ extent x d c ci s.m s.off = some n ∧ imgStep x d c ci s = .ok s' ∧
      Laid c s n s') ∨
    (HeadFits x d c ci s.m s.off ∧ imgStep x d c ci s = .error .refused) ∨
    (¬HeadFits x d c ci s.m s.off ∧ imgStep x d c ci s = .error .wild) := by
  by_cases hfit : HeadFits x d c ci s.m s.off
  case neg => exact .inr (.inr ⟨hfit, imgStep_wild hlo hhi hm hfit⟩)
  case pos =>
    have hstep := imgStep_steps hlo hhi hm hfit
    cases hn : extent x d c ci s.m s.off with
    | none =>
        rw [hn] at hstep
        exact .inr (.inl ⟨hfit, hstep⟩)
    | some n =>
        rw [hn] at hstep
        obtain ⟨s', hrun, hlaid⟩ := hstep
        exact .inl ⟨n, s', hfit, rfl, hrun, hlaid⟩

theorem Walked.held {spans : List (ℕ × ℕ)} {s : Walk} (hlohi : c.lo ≤ c.hi) (hm : c.hi ≤ m.size)
    (h : Walked x d c ci m spans s) : Held c m spans s := by
  induction h with
  | start => exact ⟨Framed.refl c m, rfl, le_rfl, hlohi⟩
  | object before inside size step ih =>
      obtain ⟨n', s'', -, hn', hrun, hlaid⟩ | ⟨-, hrun⟩ | ⟨-, hrun⟩ :=
        imgStep_cases x d ci ih.lo inside (hm.trans_eq ih.frame.1.symm)
      · cases size.symm.trans hn'
        cases step.symm.trans hrun
        exact ih.step hlaid
      · cases step.symm.trans hrun
      · cases step.symm.trans hrun

/-- One turn of the loop. -/
def turn (x : Binary) (d : Dec) (c : Chunk) (ci : ℕ) (s : Walk) (_ : ℕ) : Except Stop Walk :=
  if s.off < c.hi then imgStep x d c ci s else .ok s

/-- From a state of the walk on: as many turns as there are words end it, at the chunk's end. -/
theorem turns_meets {spans : List (ℕ × ℕ)} {s : Walk} {l : List ℕ} (hlohi : c.lo ≤ c.hi) (hm : c.hi ≤ m.size)
    (hw : Walked x d c ci m spans s) (hl : c.hi - s.off ≤ l.length)
    (hfit : ∀ spans s, Walked x d c ci m spans s → s.off < c.hi → HeadFits x d c ci s.m s.off) :
    Meets (l.foldlM (turn x d c ci) s) fun s' => s'.off = c.hi ∧ ∃ spans, Walked x d c ci m spans s' := by
  have hheld := hw.held hlohi hm
  induction l generalizing s spans with
  | nil =>
      have hend := hheld.hi
      rw [List.length_nil] at hl
      exact ⟨by omega, spans, hw⟩
  | cons a l ih =>
      rw [List.foldlM_cons]
      rw [List.length_cons] at hl
      unfold turn
      split
      case isFalse hend =>
        rw [ok_bind]
        exact ih hw (by omega) hheld
      case isTrue hin =>
        obtain ⟨n, s', -, hn, hrun, hlaid⟩ | ⟨-, hrun⟩ | ⟨hnot, -⟩ :=
          imgStep_cases x d ci hheld.lo hin (hm.trans_eq hheld.frame.1.symm)
        · rw [hrun, ok_bind]
          have hoff := hlaid.off
          have hpos := hlaid.pos
          exact ih (.object hw hin hn hrun) (by omega) (hheld.step hlaid)
        · rw [hrun]
          exact Meets.refused
        · exact absurd (hfit spans s hw hin) hnot

/-- A state the loop comes to is one the remaining turns start from. -/
theorem turns_wild {spans : List (ℕ × ℕ)} {s : Walk} (hlohi : c.lo ≤ c.hi) (hm : c.hi ≤ m.size)
    (hw : Walked x d c ci m spans s) :
    ∃ l : List ℕ, (List.range (c.hi - c.lo)).foldlM (turn x d c ci) { m := m, off := c.lo, bad := false } =
      l.foldlM (turn x d c ci) s ∧ c.hi - s.off ≤ l.length := by
  induction hw with
  | start => exact ⟨_, rfl, by rw [List.length_range]⟩
  | @object spans s s' n before inside size step ih =>
      obtain ⟨l, hrun, hl⟩ := ih
      have hheld := before.held hlohi hm
      have hheld' := (Walked.object before inside size step).held hlohi hm
      obtain ⟨n', s'', -, hn', hstep', hlaid⟩ | ⟨-, hrefused⟩ | ⟨-, hwild⟩ :=
        imgStep_cases x d ci hheld.lo inside (hm.trans_eq hheld.frame.1.symm)
      · cases step.symm.trans hstep'
        cases l with
        | nil =>
            rw [List.length_nil] at hl
            omega
        | cons a l =>
            rw [List.foldlM_cons] at hrun
            unfold turn at hrun
            rw [if_pos inside, step, ok_bind] at hrun
            have hoff := hlaid.off
            have hpos := hlaid.pos
            rw [List.length_cons] at hl
            exact ⟨l, hrun, by omega⟩
      · cases step.symm.trans hrefused
      · cases step.symm.trans hwild

theorem imgWalk_eq (hci : x.chainIndex = some ci) :
    imgWalk x d c m = (List.range (c.hi - c.lo)).foldlM (turn x d c ci) { m := m, off := c.lo, bad := false } >>=
      fun s => .ok (s.off == c.hi && !s.bad, s.m) := by
  unfold imgWalk
  rw [hci]
  rfl

theorem imgWalk_none (hci : x.chainIndex = none) : imgWalk x d c m = .error .refused := by
  unfold imgWalk
  rw [hci]

/-- The walk reads and writes no word outside the chunk, ends by its own test, and answers success only over
objects that tile the chunk. -/
structure Inside (x : Binary) (d : Dec) (c : Chunk) (m : Pool) : Prop where
  within : imgWalk x d c m ≠ .error .wild
  frame : ∀ r, imgWalk x d c m = .ok r → Framed c m r.2
  ends : ∀ r, imgWalk x d c m = .ok r →
    ∃ ci spans s, x.chainIndex = some ci ∧ Walked x d c ci m spans s ∧ s.m = r.2 ∧ ¬s.off < c.hi
  tiles : ∀ m', imgWalk x d c m = .ok (true, m') →
    ∃ ci spans s, x.chainIndex = some ci ∧ Walked x d c ci m spans s ∧ s.m = m' ∧ Tile c.lo spans c.hi

theorem imgWalk_meets (hlohi : c.lo ≤ c.hi) (hm : c.hi ≤ m.size) (hci : x.chainIndex = some ci)
    (hfit : ∀ spans s, Walked x d c ci m spans s → s.off < c.hi → HeadFits x d c ci s.m s.off) :
    Meets (imgWalk x d c m) fun r => ∃ spans s, Walked x d c ci m spans s ∧ s.m = r.2 ∧ s.off = c.hi := by
  rw [imgWalk_eq hci]
  apply Meets.bind (turns_meets hlohi hm .start (List.length_range.symm ▸ le_rfl) hfit)
  intro s hs
  obtain ⟨hend, spans, hw⟩ := hs
  exact ⟨spans, s, hw, rfl, hend⟩

theorem inside_of_meets (hlohi : c.lo ≤ c.hi) (hm : c.hi ≤ m.size) (hci : x.chainIndex = some ci)
    (h : Meets (imgWalk x d c m) fun r => ∃ spans s, Walked x d c ci m spans s ∧ s.m = r.2 ∧ s.off = c.hi) :
    Inside x d c m := by
  constructor
  case within => exact h.not_wild
  all_goals
    intro r hr
    rw [hr] at h
    obtain ⟨spans, s, hw, hpool, hend⟩ := h
    have hheld := hw.held hlohi hm
  case frame => exact hpool ▸ hheld.frame
  case ends => exact ⟨ci, spans, s, hci, hw, hpool, by omega⟩
  case tiles => exact ⟨ci, spans, s, hci, hw, hpool, hend ▸ hheld.tile⟩

theorem inside_of_none (hci : x.chainIndex = none) : Inside x d c m := by
  have hrefused : imgWalk x d c m = .error .refused := imgWalk_none hci
  constructor
  all_goals
    rw [hrefused]
    nofun

/-- The walk of any words is inside its chunk just when no head it comes to needs words past the end. -/
theorem imgWalk_inside_iff (hlohi : c.lo ≤ c.hi) (hm : c.hi ≤ m.size) :
    Inside x d c m ↔ ∀ ci, x.chainIndex = some ci → ∀ spans s, Walked x d c ci m spans s → s.off < c.hi →
      HeadFits x d c ci s.m s.off := by
  constructor
  case mp =>
    intro h ci hci spans s hw hin
    by_contra hnot
    obtain ⟨l, hrun, hl⟩ := turns_wild hlohi hm hw
    have hheld := hw.held hlohi hm
    apply h.within
    rw [imgWalk_eq hci, hrun]
    cases l with
    | nil =>
        rw [List.length_nil] at hl
        omega
    | cons a l =>
        rw [List.foldlM_cons]
        unfold turn
        rw [if_pos hin, imgStep_wild hheld.lo hin (hm.trans_eq hheld.frame.1.symm) hnot]
        rfl
  case mpr =>
    intro hfit
    cases hci : x.chainIndex with
    | none => exact inside_of_none hci
    | some ci => exact inside_of_meets hlohi hm hci (imgWalk_meets hlohi hm hci (hfit ci hci))

end Run

/-! A chunk of one word, the chain's sentinel: the walk writes past it. -/

/-- A binary of one sentinel and no data. -/
def bareBinary : Binary where
  nlvm := 1
  nfn := 0
  immortals := []
  apResolve := fun _ => 8
  fnResolve := fun _ => 0
  chainIndex := some 0
  chainAp := 8
  lazyAp := 16
  dat := fun _ => none

def bareDec : Dec where
  base := 4096
  code := 0
  cn := 0
  lazy := false

/-- The sentinel's token in every word, four of them in the pool. -/
def chainPool : Pool := ⟨4, fun _ => 1099511627776⟩

theorem imgWalk_inside_iff_chain :
    Inside bareBinary bareDec ⟨0, 3⟩ chainPool ↔ ∀ ci, bareBinary.chainIndex = some ci →
      ∀ spans s, Walked bareBinary bareDec ⟨0, 3⟩ ci chainPool spans s → s.off < 3 →
        HeadFits bareBinary bareDec ⟨0, 3⟩ ci s.m s.off :=
  imgWalk_inside_iff (by decide) (by decide)

theorem imgWalk_lone_chain_wild : ¬Inside bareBinary bareDec ⟨0, 1⟩ chainPool := fun h => h.within rfl

end LoveRuntime.Snap
