import LoveRuntime.Verification.Snap.Seats

/-! A blob laid chunk after chunk is read back, each chunk on its own. -/

namespace LoveRuntime.Snap

open Checked

/-! ### Bytes laid and read -/

/-- `wd` bytes of `v` went to `i`, and whatever keeps them reads them back. -/
structure Put (m : Bytes) (i v wd : ℕ) (m' : Bytes) : Prop where
  size : m'.size = m.size
  frame : ∀ j, j < i ∨ i + wd ≤ j → m' j = m j
  get : ∀ m'' : Bytes, (∀ j, i ≤ j → j < i + wd → m'' j = m' j) → i + wd ≤ m''.size →
    getBytes m'' i wd = .ok (v % 256 ^ wd)

theorem putBytes_none (i v wd : ℕ) : putBytes none i v wd = .ok none := by
  cases wd with
  | zero => rfl
  | succ wd => rfl

theorem putBytes_ok {m : Bytes} (i v wd : ℕ) (h : i + wd ≤ m.size) :
    ∃ m', putBytes (some m) i v wd = .ok (some m') ∧ Put m i v wd m' := by
  induction wd generalizing m i v with
  | zero => exact ⟨m, rfl, rfl, fun _ _ => rfl, fun _ _ _ => by rw [Nat.pow_zero, Nat.mod_one]; rfl⟩
  | succ wd ih =>
      obtain ⟨m', hrun, hput⟩ := ih (m := m.set i (UInt8.ofNat v)) (i + 1) (v / 256)
        (by change i + 1 + wd ≤ m.size; omega)
      unfold putBytes
      simp only
      rw [wr_of_lt (by omega), ok_bind]
      refine ⟨m', hrun, hput.size, ?_, ?_⟩
      case refine_1 =>
        intro j hj
        rw [hput.frame j (by omega), Cells.set_of_ne _ _ (by omega)]
      case refine_2 =>
        intro m'' hsame hsize
        unfold getBytes
        rw [rd_of_lt (by omega), ok_bind, hput.get m'' (fun j hj hj' => hsame j (by omega) (by omega)) (by omega),
          hsame i le_rfl (by omega), hput.frame i (by omega), Cells.set_self]
        change Except.ok ((UInt8.ofNat v).toNat + 256 * (v / 256 % 256 ^ wd)) = _
        have hsplit : v % 256 ^ (wd + 1) = v % 256 + 256 * (v / 256 % 256 ^ wd) := by
          rw [Nat.pow_succ, Nat.mul_comm (256 ^ wd), Nat.mod_mul]
        rw [UInt8.toNat_ofNat', hsplit]

/-! ### The seats of a run of words -/

/-- The seats of words from `ai` on, and the step base after them. -/
def seats (d : Dic) : ℕ → Word → List Word → Except Stop (List Seat × Word)
  | _, last, [] => .ok ([], last)
  | ai, last, w :: ws => do
      let s ← imgSeat d ai last w
      let r ← seats d (ai + 1) s.2 ws
      .ok (s.1 :: r.1, r.2)

theorem seats_cons (d : Dic) (ai : ℕ) (last w : Word) (ws : List Word) : seats d ai last (w :: ws) =
    imgSeat d ai last w >>= fun s => seats d (ai + 1) s.2 ws >>= fun r => .ok (s.1 :: r.1, r.2) := rfl

/-- The bytes of the literals. -/
def litBytes (l : List Seat) : ℕ := (l.map Seat.wd).sum

theorem litBytes_cons (s : Seat) (l : List Seat) : litBytes (s :: l) = s.wd + litBytes l := by
  rw [litBytes, List.map_cons, List.sum_cons]
  rfl

theorem litBytes_append (l l' : List Seat) : litBytes (l ++ l') = litBytes l + litBytes l' := by
  rw [litBytes, List.map_append, List.sum_append]
  rfl

/-- The words stand in the blob from `ai` on. -/
def At (blob : List Word) (ai : ℕ) (ws : List Word) : Prop := ∀ j w, ws[j]? = some w → blob[ai + j]? = some w

section Run

variable {d : Dic} {blob ws ws' : List Word} {w last last' : Word} {ai i i0 n p : ℕ} {l : List Seat}

theorem At.head (h : At blob ai (w :: ws)) : blob[ai]? = some w := h 0 w rfl

theorem At.tail (h : At blob ai (w :: ws)) : At blob (ai + 1) ws := by
  intro j w' hw
  rw [Nat.add_right_comm]
  exact h (j + 1) w' hw

theorem At.left (h : At blob ai (ws ++ ws')) : At blob ai ws := by
  intro j w hw
  have hj := (List.getElem?_eq_some_iff.mp hw).1
  exact h j w (by rw [List.getElem?_append_left hj, hw])

theorem At.right (h : At blob ai (ws ++ ws')) : At blob (ai + ws.length) ws' := by
  intro j w hw
  rw [Nat.add_assoc]
  exact h (ws.length + j) w (by rw [List.getElem?_append_right (by omega), Nat.add_sub_cancel_left, hw])

theorem seats_ok (hd : d.Sound blob) (hbytes : 8 * blob.length ≤ imageIdxBase) (hlast : Based last)
    (hat : At blob ai ws) :
    ∃ l last', seats d ai last ws = .ok (l, last') ∧ Based last' ∧ ∀ s ∈ l, s.Fits := by
  induction ws generalizing ai last with
  | nil => exact ⟨[], _, rfl, hlast, nofun⟩
  | cons w ws ih =>
      obtain ⟨s, last₁, hseat, hfits, hlast₁, -⟩ := imgSeat_ok hd hbytes hat.head hlast
      obtain ⟨l, last', hrun, hlast', hl⟩ := ih hlast₁ hat.tail
      rw [seats_cons]
      rw [hseat, ok_bind, hrun]
      refine ⟨s :: l, last', rfl, hlast', ?_⟩
      simpa using ⟨hfits, hl⟩

theorem seats_append (l₁ : List Seat) (last₁ : Word) (h : seats d ai last ws = .ok (l₁, last₁)) :
    seats d ai last (ws ++ ws') = seats d (ai + ws.length) last₁ ws' >>= fun r => .ok (l₁ ++ r.1, r.2) := by
  induction ws generalizing ai last l₁ with
  | nil =>
      cases h
      rw [List.nil_append, List.length_nil, Nat.add_zero]
      cases seats d ai last₁ ws' with
      | ok r => rfl
      | error e => rfl
  | cons w ws ih =>
      rw [List.cons_append, seats_cons]
      rw [seats_cons] at h
      cases hs : imgSeat d ai last w with
      | error e =>
          rw [hs] at h
          cases h
      | ok s =>
          rw [hs, ok_bind] at h
          cases hr : seats d (ai + 1) s.2 ws with
          | error e =>
              rw [hr] at h
              cases h
          | ok r =>
              rw [hr] at h
              cases h
              rw [ok_bind, ih r.1 hr, List.length_cons, Nat.add_right_comm, Nat.add_assoc]
              cases seats d (ai + (ws.length + 1)) r.2 ws' with
              | ok r' => rfl
              | error e => rfl

/-- The sizing pass counts the literals. -/
theorem layWords_none (h : seats d (i0 + i) last ws = .ok (l, last')) :
    layWords d p i0 i ws { out := none, n := n, last := last } =
      .ok { out := none, n := n + litBytes l, last := last' } := by
  induction ws generalizing i n last l with
  | nil =>
      cases h
      rfl
  | cons w ws ih =>
      rw [seats_cons] at h
      unfold layWords
      cases hs : imgSeat d (i0 + i) last w with
      | error e =>
          rw [hs] at h
          cases h
      | ok s =>
          rw [hs, ok_bind] at h
          cases hr : seats d (i0 + i + 1) s.2 ws with
          | error e =>
              rw [hr] at h
              cases h
          | ok r =>
              rw [hr] at h
              cases h
              rw [ok_bind, putBytes_none, ok_bind, putBytes_none, ok_bind, ih hr, litBytes_cons, Nat.add_assoc]

/-- What laying words from the `i`th of a chunk on leaves: their tokens and literals, which read back to them. -/
structure Wrote (d : Dic) (p i0 i : ℕ) (ws : List Word) (last : Word) (n lit : ℕ) (m m' : Bytes) : Prop where
  size : m'.size = m.size
  frame : ∀ j, j < p + 8 + i ∨ p + 8 + i + ws.length ≤ j ∧ j < p + n ∨ p + n + lit ≤ j → m' j = m j
  expand : ∀ (m'' : Bytes) stop,
    (∀ j, p + 8 + i ≤ j ∧ j < p + 8 + i + ws.length ∨ p + n ≤ j ∧ j < p + n + lit → m'' j = m' j) →
    p + n + lit ≤ m''.size → p + n + lit ≤ stop →
    expandWords m'' d.dict (p + 8) stop i0 ws.length i { q := p + n, last := last } = .ok (ws, p + n + lit)

theorem layWords_some (hd : d.Sound blob) (hbytes : 8 * blob.length ≤ imageIdxBase) (hlast : Based last)
    (hat : At blob (i0 + i) ws) (h : seats d (i0 + i) last ws = .ok (l, last')) {m : Bytes}
    (hn : 8 + i + ws.length ≤ n) (hm : p + n + litBytes l ≤ m.size) :
    ∃ m', layWords d p i0 i ws { out := some m, n := n, last := last } =
      .ok { out := some m', n := n + litBytes l, last := last' } ∧ Wrote d p i0 i ws last n (litBytes l) m m' := by
  induction ws generalizing i n last l m with
  | nil =>
      cases h
      exact ⟨m, rfl, rfl, fun _ _ => rfl, fun _ _ _ _ _ => rfl⟩
  | cons w ws ih =>
      obtain ⟨s, last₁, hseat, hfits, hlast₁, hexp⟩ := imgSeat_ok hd hbytes hat.head hlast
      obtain ⟨l₁, last₂, hrest, -, -⟩ := seats_ok hd hbytes hlast₁ hat.tail
      rw [seats_cons] at h
      rw [hseat, ok_bind, hrest] at h
      cases h
      dsimp only at hm ⊢
      rw [litBytes_cons] at hm ⊢
      rw [List.length_cons] at hn
      -- the token, then its literal, then the rest
      obtain ⟨m₁, hput₁, htok⟩ := putBytes_ok (m := m) (p + 8 + i) s.tok 1 (by omega)
      obtain ⟨m₂, hput₂, hlit⟩ := putBytes_ok (m := m₁) (p + n) s.lit s.wd (by rw [htok.size]; omega)
      obtain ⟨m', hrun, hwrote⟩ := ih (i := i + 1) (n := n + s.wd) (l := l₁) (m := m₂) hlast₁ hat.tail hrest (by omega)
        (by rw [hlit.size, htok.size]; omega)
      unfold layWords
      rw [hseat, ok_bind, hput₁, ok_bind, hput₂, ok_bind]
      refine ⟨m', by rw [hrun, Nat.add_assoc], ?_, ?_, ?_⟩
      case refine_1 => rw [hwrote.size, hlit.size, htok.size]
      case refine_2 =>
        intro j hj
        rw [List.length_cons] at hj
        rw [hwrote.frame j (by omega), hlit.frame j (by omega), htok.frame j (by omega)]
      case refine_3 =>
        intro m'' stop hsame hsize hstop
        rw [List.length_cons] at hsame ⊢
        have hwide := hfits.tok.lt
        have hget : getBytes m'' (p + 8 + i) 1 = .ok (s.tok % 256 ^ 1) := by
          apply htok.get m'' _ (by omega)
          intro j hj hj'
          rw [hsame j (by omega), hwrote.frame j (by omega), hlit.frame j (by omega)]
        have hgetlit : getBytes m'' (p + n) s.wd = .ok s.lit := by
          rw [hlit.get m'' _ (by omega), Nat.mod_eq_of_lt hfits.lit]
          intro j hj hj'
          rw [hsame j (by omega), hwrote.frame j (by omega)]
        have hbyte : (m'' (p + 8 + i)).toNat = s.tok := by
          unfold getBytes at hget
          rw [rd_of_lt (by omega), ok_bind] at hget
          have hval := Except.ok.inj hget
          omega
        have htail := hwrote.expand m'' stop (fun j hj => hsame j (by omega)) (by omega) (by omega)
        unfold expandWords
        rw [rd_of_lt (by omega), ok_bind, hbyte, hexp m'' stop (p + n) hgetlit (by omega), ok_bind]
        simp only
        rw [show p + n + s.wd = p + (n + s.wd) by omega, htail, show p + (n + s.wd) + litBytes l₁ = p + n + (s.wd + litBytes l₁) by omega]
        rfl

/-! ### A chunk -/

theorem imgStream_none (h : seats d i0 last ws = .ok (l, last')) :
    imgStream none p ws i0 d last = .ok { out := none, n := 8 + ws.length + litBytes l, last := last' } := by
  unfold imgStream
  rw [putBytes_none, ok_bind]
  exact layWords_none h

theorem imgStream_some (hd : d.Sound blob) (hbytes : 8 * blob.length ≤ imageIdxBase) (hlast : Based last)
    (hat : At blob i0 ws) (h : seats d i0 last ws = .ok (l, last')) {m : Bytes}
    (hm : p + (8 + ws.length + litBytes l) ≤ m.size) :
    ∃ m', imgStream (some m) p ws i0 d last = .ok { out := some m', n := 8 + ws.length + litBytes l, last := last' } ∧
      m'.size = m.size ∧ (∀ j, j < p ∨ p + (8 + ws.length + litBytes l) ≤ j → m' j = m j) ∧
      ∀ m'' : Bytes, (∀ j, p ≤ j → j < p + (8 + ws.length + litBytes l) → m'' j = m' j) → m''.size = m'.size →
        imgExpand m'' ws.length i0 p (p + (8 + ws.length + litBytes l)) d.dict =
          .ok (ws, p + (8 + ws.length + litBytes l)) := by
  obtain ⟨m₁, hbase, hput⟩ := putBytes_ok (m := m) p last.toNat 8 (by omega)
  obtain ⟨m', hrun, hwrote⟩ := layWords_some (i := 0) (n := 8 + ws.length) (p := p) (m := m₁) hd hbytes hlast hat h
    (by omega) (by rw [hput.size]; omega)
  unfold imgStream
  rw [hbase, ok_bind]
  refine ⟨m', hrun, by rw [hwrote.size, hput.size], ?_, ?_⟩
  case refine_1 =>
    intro j hj
    rw [hwrote.frame j (by omega), hput.frame j (by omega)]
  case refine_2 =>
    intro m'' hsame hsize
    rw [hwrote.size, hput.size] at hsize
    have hlow : getBytes m'' p 8 = .ok last.toNat := by
      rw [hput.get m'' _ (by omega), Nat.mod_eq_of_lt (last.toNat_lt.trans_eq (by decide))]
      intro j hj hj'
      rw [hsame j hj (by omega), hwrote.frame j (by omega)]
    have hwords := hwrote.expand m'' (p + (8 + ws.length + litBytes l)) (fun j hj => hsame j (by omega) (by omega))
      (by omega) (by omega)
    unfold imgExpand
    rw [if_neg (by omega), hlow, ok_bind, UInt64.ofNat_toNat, Nat.add_assoc p 8, hwords, Nat.add_assoc]

end Run

/-! ### A blob -/

/-- The chunks follow on one another, in words and in bytes. -/
def Adjacent : ℕ → ℕ → List Row → Prop
  | _, _, [] => True
  | a, ra, row :: rows => row.a = a ∧ row.ra = ra ∧ ra ≤ row.rb ∧ Adjacent (a + row.ws.length) row.rb rows

/-- A chunk laid as it was sized, in range, that expands on its own to its words and ends where it does. -/
structure Lossless (d : Dic) (raw : Bytes) (row : Row) : Prop where
  sized : ∃ last', imgStream none 0 row.ws row.a d row.last = .ok { out := none, n := row.rb - row.ra, last := last' }
  fits : ∃ l last', seats d row.a row.last row.ws = .ok (l, last') ∧ ∀ s ∈ l, s.Fits
  expands : imgExpand raw row.ws.length row.a row.ra row.rb d.dict = .ok (row.ws, row.rb)

theorem layChunks_ok {d : Dic} {blob : List Word} {chunks : List (List Word)} {a : ℕ} {last last' : Word}
    {l : List Seat} (raw : Bytes) (ra : ℕ) (hd : d.Sound blob) (hbytes : 8 * blob.length ≤ imageIdxBase) (hlast : Based last)
    (hat : At blob a chunks.flatten) (h : seats d a last chunks.flatten = .ok (l, last'))
    (hraw : ra + 8 * chunks.length + chunks.flatten.length + litBytes l ≤ raw.size) :
    ∃ raw' rows, layChunks d chunks raw a ra last = .ok (raw', rows) ∧ raw'.size = raw.size ∧
      (∀ j < ra, raw' j = raw j) ∧ rows.map Row.ws = chunks ∧ Adjacent a ra rows ∧ ∀ row ∈ rows, Lossless d raw' row := by
  induction chunks generalizing a ra last l raw with
  | nil => exact ⟨raw, [], rfl, rfl, fun _ _ => rfl, rfl, trivial, nofun⟩
  | cons ws chunks ih =>
      rw [List.flatten_cons] at hat h hraw
      rw [List.length_cons, List.length_append] at hraw
      obtain ⟨l₁, last₁, hhead, hlast₁, hfits⟩ := seats_ok hd hbytes hlast hat.left
      obtain ⟨l₂, last₂, htail, -, -⟩ := seats_ok hd hbytes hlast₁ hat.right
      rw [seats_append l₁ last₁ hhead, htail] at h
      cases h
      dsimp only at hraw
      rw [litBytes_append] at hraw
      obtain ⟨m', hrun, hsize, hframe, hexp⟩ := imgStream_some (p := ra) (m := raw) hd hbytes hlast hat.left hhead
        (by omega)
      obtain ⟨raw', rows, hrest, hsize', hbelow, hws, hadj, hrows⟩ :=
        ih m' (ra + (8 + ws.length + litBytes l₁)) hlast₁ hat.right htail (by rw [hsize]; omega)
      unfold layChunks
      rw [hrun, ok_bind]
      simp only [Option.getD_some]
      rw [hrest, ok_bind]
      refine ⟨raw', _, rfl, by rw [hsize', hsize], ?_, by rw [List.map_cons, hws], ⟨rfl, rfl, Nat.le_add_right _ _, hadj⟩, ?_⟩
      case refine_1 =>
        intro j hj
        rw [hbelow j (by omega), hframe j (by omega)]
      case refine_2 =>
        intro row hrow
        obtain rfl | hrow := List.mem_cons.mp hrow
        · constructor
          case sized => exact ⟨last₁, by rw [imgStream_none hhead, Nat.add_sub_cancel_left]⟩
          case fits => exact ⟨l₁, last₁, hhead, hfits⟩
          case expands => exact hexp raw' (fun j hj hj' => hbelow j hj') hsize'
        · exact hrows row hrow

/-- A blob shorter than the index space gets a dictionary, and any tiling of it, laid chunk after chunk into the
bytes its sizing pass asks for, is read back chunk by chunk. -/
theorem stream_lossless (blob : List Word) (hbytes : wordBytes * blob.length < imageIdxBase) :
    ∃ d s, wireDic blob = .ok d ∧ imgStream none 0 blob 0 d 0 = .ok s ∧
      ∀ (chunks : List (List Word)), chunks.flatten = blob → ∀ raw : Bytes, s.n + 8 * chunks.length ≤ raw.size →
        ∃ raw' rows, layChunks d chunks raw 0 0 0 = .ok (raw', rows) ∧ rows.map Row.ws = chunks ∧ Adjacent 0 0 rows ∧
          ∀ row ∈ rows, Lossless d raw' row := by
  obtain ⟨d, hwire, hd⟩ := wireDic_sound blob
  have hbytes' : 8 * blob.length ≤ imageIdxBase := hbytes.le
  have hzero : Based 0 := ⟨rfl, by decide⟩
  have hat : At blob 0 blob := fun j w hw => by rw [Nat.zero_add, hw]
  obtain ⟨l, last', hseats, -, -⟩ := seats_ok hd hbytes' hzero hat
  refine ⟨d, _, hwire, imgStream_none hseats, ?_⟩
  intro chunks hchunks raw hraw
  subst hchunks
  dsimp only at hraw
  obtain ⟨raw', rows, hrun, -, -, hws, hadj, hrows⟩ := layChunks_ok raw 0 hd hbytes' hzero hat hseats
    (by omega)
  exact ⟨raw', rows, hrun, hws, hadj, hrows⟩

/-- Six words: a chain's step, a repeat, an index and a small number. -/
theorem stream_lossless_six :
    ∃ d s, wireDic [24, 0, 24, 1099511627776, 7, 7] = .ok d ∧ imgStream none 0 [24, 0, 24, 1099511627776, 7, 7] 0 d 0 = .ok s ∧
      ∀ (chunks : List (List Word)), chunks.flatten = [24, 0, 24, 1099511627776, 7, 7] → ∀ raw : Bytes,
        s.n + 8 * chunks.length ≤ raw.size →
        ∃ raw' rows, layChunks d chunks raw 0 0 0 = .ok (raw', rows) ∧ rows.map Row.ws = chunks ∧ Adjacent 0 0 rows ∧
          ∀ row ∈ rows, Lossless d raw' row :=
  stream_lossless [24, 0, 24, 1099511627776, 7, 7] (by decide)

end LoveRuntime.Snap
