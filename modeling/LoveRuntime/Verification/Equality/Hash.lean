import LoveRuntime.Verification.Equality.Walk

/-! # Equal keys and their hashes

The hashes of two values are computed side by side: at every place the two walks read a pair
of the closed set that equality went through. Where both read the same, the hashes are the
same. Two kinds of pairs that equality accepts do not read the same: a zero of either sign,
and a word shared by two threads that points back into one of them. -/

namespace LoveRuntime

open LoveRuntime.Core Outcome

variable {g : Core}

/-! ## What is read side by side -/

/-- How a pair is read: by the walk over chains and object trays, as a function with `d`
levels of functions below it, or as a leaf. -/
inductive Level where
  | walk
  | fn (d : ℕ)
  | leaf

/-- The pairs that the hashes of `a` and `b` read at the same place. -/
inductive Read (g : Core) (a b : ℕ) : Level → ℕ → ℕ → Prop where
  | start : Read g a b .walk a b
  | car {x y : ℕ} (h : Read g a b .walk x y) (hx : g.chainp x = true) (hy : g.chainp y = true) :
      Read g a b .walk (g.cell x 1) (g.cell y 1)
  | cdr {x y : ℕ} (h : Read g a b .walk x y) (hx : g.chainp x = true) (hy : g.chainp y = true) :
      Read g a b .walk (g.cell x 2) (g.cell y 2)
  | elem {x y i : ℕ} (h : Read g a b .walk x y) (hx : g.objtrayp x = true)
      (hy : g.objtrayp y = true) (hi : i < g.trayNelem x) :
      Read g a b .walk (g.trayGetObj x i) (g.trayGetObj y i)
  | fn {x y : ℕ} (h : Read g a b .walk x y) (hx : charmp x = false) (hy : charmp y = false)
      (hdx : g.dat x = none) (hdy : g.dat y = none) : Read g a b (.fn 1) x y
  | leaf {x y : ℕ} (h : Read g a b .walk x y) : Read g a b .leaf x y
  | base {d x y x' y' bx by' n : ℕ} (h : Read g a b (.fn d) x y) (hf : FnPair g x y x' y')
      (hp : Partials g x' y' bx by' n) : Read g a b (.fn d) bx by'
  | held {d x y x' y' tx ty i : ℕ} (h : Read g a b (.fn (d + 1)) x y) (hf : FnPair g x y x' y')
      (ht : Threads g x' y' tx ty) (hi : i < g.threadLen x' tx) (hreach : i < fnReach (d + 1))
      (hx : charmp (g.cell x' i) = false) (hy : charmp (g.cell y' i) = false)
      (hdx : g.dat (g.cell x' i) = none) (hdy : g.dat (g.cell y' i) = none) :
      Read g a b (.fn d) (g.cell x' i) (g.cell y' i)
  | heldLeaf {d x y x' y' tx ty i : ℕ} (h : Read g a b (.fn (d + 1)) x y)
      (hf : FnPair g x y x' y') (ht : Threads g x' y' tx ty) (hi : i < g.threadLen x' tx)
      (hreach : i < fnReach (d + 1)) : Read g a b .leaf (g.cell x' i) (g.cell y' i)

/-- Zero twice, with both signs. -/
def OppositeZeros (r : Arch) (u v : ℕ) : Prop := r.unsigned u = 0 ∧ r.unsigned v = 0 ∧ u ≠ v

/-- The word `v` points into the thread that ends at `tag`. -/
def PointsInto (g : Core) (tag v : ℕ) : Prop := ∃ p, g.selfWord tag v = .ok (some p)

/-- No pair that the hashes read side by side is a zero of two signs, and no word that two
threads share points back into one of them. -/
structure Fair (g : Core) (a b : ℕ) : Prop where
  gem : ∀ x y, Read g a b .leaf x y → g.dat x = some .gem → g.dat y = some .gem →
    ¬ OppositeZeros g.arch (g.cell x 1) (g.cell y 1)
  twin : ∀ x y, Read g a b .leaf x y → g.dat x = some .twin → g.dat y = some .twin →
    ¬ OppositeZeros g.arch (g.cell x 1) (g.cell y 1) ∧
      ¬ OppositeZeros g.arch (g.cell x 2) (g.cell y 2)
  self : ∀ d x y x' y' tx ty i, Read g a b (.fn d) x y → FnPair g x y x' y' →
    Threads g x' y' tx ty → i < g.threadLen x' tx → i < fnReach d →
    g.cell x' i = g.cell y' i →
    ¬ PointsInto g tx (g.cell x' i) ∧ ¬ PointsInto g ty (g.cell x' i)

/-- A coin is a thread of three words in the heap. -/
structure CoinLaid (g : Core) (x : ℕ) : Prop where
  heap : g.inHeap x = true
  tag : g.ttag x = .ok (x + 3 * g.arch.bytes)

/-- What the runtime lays out: coins in the heap, and partials over functions. -/
structure Laid (g : Core) (a b : ℕ) : Prop where
  left : ∀ l x y, Read g a b l x y → g.coinp x = true → CoinLaid g x
  right : ∀ l x y, Read g a b l x y → g.coinp y = true → CoinLaid g y
  fns : ∀ d x y, Read g a b (.fn d) x y →
    (charmp x = false ∧ g.dat x = none) ∧ charmp y = false ∧ g.dat y = none

/-! ## Leaves -/

/-- How a pair that is not unequal at once goes on. -/
inductive LeafCase (g : Core) (a b : ℕ) : Prop where
  | same (h : a = b)
  | coin (hleaf : g.eqvLeaf a b = .coin) (ha : g.coinp a = true) (hb : g.coinp b = true)
  | fn (hleaf : g.eqvLeaf a b = .fn) (ha : charmp a = false) (hb : charmp b = false)
      (hda : g.dat a = none) (hdb : g.dat b = none)
  | data (d : DataKind) (hleaf : g.eqvLeaf a b = g.eqvData a b d) (ha : charmp a = false)
      (hb : charmp b = false) (hda : g.dat a = some d) (hdb : g.dat b = some d)

theorem leaf_cases {a b : ℕ} (h : g.eqvLeaf a b ≠ .no) : LeafCase g a b := by
  by_cases hab : a = b
  · exact .same hab
  · by_cases hcoin : (g.coinp a || g.coinp b) = true
    · have hleaf : g.eqvLeaf a b =
          if g.coinp a && g.coinp b && g.cell a 1 == g.cell b 1 then .coin else .no := by
        simp [eqvLeaf, hab, hcoin]
      split at hleaf
      · rename_i hboth
        simp only [Bool.and_eq_true] at hboth
        exact .coin hleaf hboth.1.1 hboth.1.2
      · exact absurd hleaf h
    · unfold eqvLeaf at h
      simp only [if_neg hab, if_neg hcoin] at h
      split at h
      · rename_i hfn
        simp only [Bool.and_eq_true, Bool.not_eq_true', datp, Option.isSome_eq_false_iff,
          Option.isNone_iff_eq_none] at hfn
        obtain ⟨⟨⟨ha, hb⟩, hda⟩, hdb⟩ := hfn
        exact .fn (by simp [eqvLeaf, hab, hcoin, ha, hb, hda, hdb, datp]) ha hb hda hdb
      · rename_i hfn
        split at h
        · exact absurd rfl h
        · rename_i hcharm
          simp only [Bool.or_eq_true, not_or, Bool.not_eq_true] at hcharm
          split at h
          · rename_i da db hda hdb
            split at h
            · rename_i hd
              subst hd
              refine .data da ?_ hcharm.1 hcharm.2 hda hdb
              simp [eqvLeaf, hab, hcoin, hcharm.1, hcharm.2, hda, hdb, datp]
            · exact absurd rfl h
          · exact absurd rfl h

/-! ## Bytes -/

theorem byte_congr {a b i : ℕ} (h : g.cell a (i / g.arch.bytes) = g.cell b (i / g.arch.bytes)) :
    g.byte a i = g.byte b i := by
  rw [byte, byte, h]

theorem sameBytes_iff {a b lo n : ℕ} :
    g.sameBytes a b lo n = true ↔ ∀ i < n, g.byte a (lo + i) = g.byte b (lo + i) := by
  simp [sameBytes]

theorem bytesHash_congr {a b lo n : ℕ} (h : ∀ i < n, g.byte a (lo + i) = g.byte b (lo + i)) :
    g.bytesHash a lo n = g.bytesHash b lo n := by
  unfold bytesHash
  apply List.foldl_ext
  intro acc i hi
  rw [h i (List.mem_range.mp hi)]

theorem Arch.bytes_pos (r : Arch) : 0 < r.bytes := by
  cases r <;> decide

/-- Boxes whose words past the first agree hash alike. -/
theorem boxHash_congr {a b n : ℕ} (h : ∀ j, 1 ≤ j → j < n → g.cell a j = g.cell b j) :
    g.boxHash a (n * g.arch.bytes) = g.boxHash b (n * g.arch.bytes) := by
  apply bytesHash_congr
  intro i hi
  apply byte_congr
  have hpos := g.arch.bytes_pos
  apply h
  · exact (Nat.one_le_div_iff hpos).mpr (Nat.le_add_right _ _)
  · apply (Nat.div_lt_iff_lt_mul hpos).mpr
    omega

theorem floEq_bits {r : Arch} {u v : ℕ} (h : r.floEq u v = true)
    (hz : ¬ OppositeZeros r u v) : u = v := by
  by_contra hne
  apply hz
  simp only [Arch.floEq, Bool.and_eq_true, Bool.or_eq_true, beq_iff_eq] at h
  rcases h.2 with heq | h0
  · exact absurd heq hne
  · exact ⟨h0.1, h0.2, hne⟩

theorem dataHash_congr {a b : ℕ} {d : DataKind}
    (hgem : d = .gem → ¬ OppositeZeros g.arch (g.cell a 1) (g.cell b 1))
    (htwin : d = .twin → ¬ OppositeZeros g.arch (g.cell a 1) (g.cell b 1) ∧
      ¬ OppositeZeros g.arch (g.cell a 2) (g.cell b 2))
    (h : g.eqvData a b d = .yes ∨ g.eqvData a b d = .tray) :
    g.dataHash a d = g.dataHash b d := by
  cases d with
  | chain => rfl
  | mint => simp [eqvData] at h
  | nom => simp [eqvData] at h
  | gem =>
      have hflo : g.arch.floEq (g.cell a 1) (g.cell b 1) = true := by
        by_contra hno
        simp [eqvData, hno] at h
      have hword := floEq_bits hflo (hgem rfl)
      apply boxHash_congr
      intro j h₁ h₂
      obtain rfl : j = 1 := by omega
      exact hword
  | twin =>
      have hflo : g.arch.floEq (g.cell a 1) (g.cell b 1) = true ∧
          g.arch.floEq (g.cell a 2) (g.cell b 2) = true := by
        by_contra hno
        rw [← Bool.and_eq_true] at hno
        simp only [eqvData, if_neg hno] at h
        simp at h
      have hre := floEq_bits hflo.1 (htwin rfl).1
      have him := floEq_bits hflo.2 (htwin rfl).2
      apply boxHash_congr
      intro j h₁ h₂
      rcases (by omega : j = 1 ∨ j = 2) with rfl | rfl
      · exact hre
      · exact him
  | big =>
      have hboth : g.cell a 1 = g.cell b 1 ∧
          g.sameBytes a b (2 * g.arch.bytes) (g.bigLimbs a * g.limbBytes) = true := by
        by_contra hno
        rw [← beq_iff_eq, ← Bool.and_eq_true] at hno
        simp only [eqvData, if_neg hno] at h
        simp at h
      have hlimbs : g.bigLimbs a = g.bigLimbs b := by simp only [bigLimbs, hboth.1]
      have hbytes := sameBytes_iff.mp hboth.2
      simp only [dataHash, boxHash, bigBytes, ← hlimbs]
      apply bytesHash_congr
      intro i hi
      have hpos := g.arch.bytes_pos
      -- the length's word, then the limbs
      by_cases hlen : i < g.arch.bytes
      · apply byte_congr
        have hone : (g.arch.bytes + i) / g.arch.bytes = 1 := by
          rw [Nat.add_div_left _ hpos, Nat.div_eq_of_lt hlen]
        rw [hone]
        exact hboth.1
      · have := hbytes (i - g.arch.bytes) (by omega)
        rwa [show 2 * g.arch.bytes + (i - g.arch.bytes) = g.arch.bytes + i by omega] at this
  | string =>
      have hboth : g.cell a 1 = g.cell b 1 ∧
          g.sameBytes a b (2 * g.arch.bytes) (g.cell a 1) = true := by
        by_contra hno
        rw [← beq_iff_eq, ← Bool.and_eq_true] at hno
        simp only [eqvData, if_neg hno] at h
        simp at h
      simp only [dataHash, ← hboth.1]
      exact bytesHash_congr (sameBytes_iff.mp hboth.2)
  | tray =>
      by_cases hobj : (g.objtrayp a || g.objtrayp b) = true
      · have hboth : (g.objtrayp a && g.objtrayp b && g.trayRank a == g.trayRank b &&
            (List.range (g.trayRank a)).all fun k => g.trayShape a k == g.trayShape b k) = true := by
          by_contra hno
          simp only [eqvData, if_pos hobj, if_neg hno] at h
          simp at h
        simp only [Bool.and_eq_true, beq_iff_eq, List.all_eq_true, List.mem_range] at hboth
        obtain ⟨⟨⟨ha, hb⟩, hrank⟩, hshape⟩ := hboth
        simp only [dataHash, ha, hb, if_true, trayHeader, ← hrank]
        apply boxHash_congr
        intro j h₁ h₂
        rcases (by omega : j = 1 ∨ j = 2 ∨ 3 ≤ j) with rfl | rfl | h₃
        · have hta : g.trayType a = loveO := by
            simp only [objtrayp, Bool.and_eq_true, beq_iff_eq] at ha
            exact ha.2
          have htb : g.trayType b = loveO := by
            simp only [objtrayp, Bool.and_eq_true, beq_iff_eq] at hb
            exact hb.2
          exact hta.trans htb.symm
        · exact hrank
        · have := hshape (j - 3) (by omega)
          simpa only [trayShape, show 3 + (j - 3) = j by omega] using this
      · have hboth : g.trayBytes a = g.trayBytes b ∧
            g.sameBytes a b 0 (g.trayBytes a) = true := by
          by_contra hno
          rw [← beq_iff_eq, ← Bool.and_eq_true] at hno
          simp only [eqvData, if_neg hobj, if_neg hno] at h
          simp at h
        simp only [Bool.or_eq_true, not_or, Bool.not_eq_true] at hobj
        simp only [dataHash, hobj.1, hobj.2, Bool.false_eq_true, if_false, boxHash, ← hboth.1]
        apply bytesHash_congr
        intro i hi
        simpa using sameBytes_iff.mp hboth.2 (g.arch.bytes + i) (by omega)

/-! ## Functions -/

theorem coinp_iff {x : ℕ} : g.coinp x = true ↔ charmp x = false ∧ g.ap x = .coin := by
  simp [coinp]

theorem dat_of_coin {x : ℕ} (h : g.ap x = .coin) : g.dat x = none := by
  simp [dat, h]

/-- A coin is nobody's twin: it is read as it stands. -/
theorem fnMeaning_coin {x : ℕ} (h : g.ap x = .coin) :
    g.fnMeaning x = if g.steps = 0 then .error .astray else .ok x := by
  have htwin : g.nativeTwin x = none := by
    have hop : g.op (g.mem x) = .coin := h
    have hcode : g.codeIn (g.mem x) = false := by
      by_contra hin
      rw [Bool.not_eq_false] at hin
      simp [g.arena _ hin] at hop
    simp [nativeTwin, ap, hop, hcode]
  unfold fnMeaning
  cases g.steps with
  | zero => rfl
  | succ n =>
      rw [fnMeaningFrom, htwin]
      split <;> rfl

theorem fnHashD_coin {x y : ℕ} (hx : g.ap x = .coin) (hy : g.ap y = .coin)
    (hlx : CoinLaid g x) (hly : CoinLaid g y) (fuel d : ℕ) :
    g.fnHashD fuel d x = g.fnHashD fuel d y := by
  cases fuel with
  | zero => rfl
  | succ fuel =>
      have hcx : g.fnCarrier x = true := by simp [fnCarrier, hx]
      have hcy : g.fnCarrier y = true := by simp [fnCarrier, hy]
      have hlen : ∀ z, g.threadLen z (z + 3 * g.arch.bytes) = 3 := by
        intro z
        rw [threadLen, Nat.add_sub_cancel_left, Nat.mul_div_cancel _ g.arch.bytes_pos]
      rw [fnHashD, fnHashD, fnMeaning_coin hx, fnMeaning_coin hy]
      split
      · rfl
      · simp only [bind, Except.bind, hlx.heap, hly.heap, hlx.tag, hly.tag, hcx, hcy, hlen,
          Bool.not_true, Bool.false_eq_true, if_false, if_true]

/-- A word that points into neither thread is read alike in both. -/
theorem selfWord_congr {tx ty v : ℕ} (hx : ¬ PointsInto g tx v) (hy : ¬ PointsInto g ty v) :
    g.selfWord tx v = g.selfWord ty v := by
  unfold PointsInto selfWord at *
  by_cases hc : charmp v = true
  · simp [hc]
  · simp only [hc, Bool.false_eq_true, if_false] at hx hy ⊢
    have hx' : (decide (g.tagHead tx ≤ v) && decide (v ≤ tx)) = false := by
      by_contra h
      rw [Bool.not_eq_false] at h
      exact hx ⟨v, by simp only [h, if_true]⟩
    have hy' : (decide (g.tagHead ty ≤ v) && decide (v ≤ ty)) = false := by
      by_contra h
      rw [Bool.not_eq_false] at h
      exact hy ⟨v, by simp only [h, if_true]⟩
    simp only [hx', hy', Bool.false_eq_true, if_false] at hx hy ⊢
    cases hm : g.fnMeaning v with
    | error e => rfl
    | ok m =>
        simp only [hm, bind, Except.bind, pure, Except.pure, Except.ok.injEq] at hx hy ⊢
        split
        · rename_i h
          exact absurd ⟨m, by simp only [h, if_true]⟩ hx
        · split
          · rename_i h
            exact absurd ⟨m, by simp only [h, if_true]⟩ hy
          · rfl

/-- How two words at one place of two threads agree. -/
inductive WordCase (g : Core) (a ta b tb x y : ℕ) : Prop where
  | same (h : x = y)
  | self {p q : ℕ} (hx : charmp x = false) (hy : charmp y = false)
      (hp : g.selfWord ta x = .ok (some p)) (hq : g.selfWord tb y = .ok (some q))
      (h : g.arch.wrap (p + 2 ^ g.arch.bits - a) = g.arch.wrap (q + 2 ^ g.arch.bits - b))
  | pair (hx : charmp x = false) (hy : charmp y = false) (hp : g.selfWord ta x = .ok none)
      (hq : g.selfWord tb y = .ok none) (hhx : g.inHeap x = true) (hhy : g.inHeap y = true)
      (h : g.fnEqWord a ta b tb x y = .ok (some [(x, y)]))

theorem word_cases {a ta b tb x y : ℕ} {ps : List (ℕ × ℕ)}
    (h : g.fnEqWord a ta b tb x y = .ok (some ps)) : WordCase g a ta b tb x y := by
  by_cases hxy : x = y
  · exact .same hxy
  · have h' := h
    rw [fnEqWord, if_neg hxy] at h
    split at h
    · cases h
    · rename_i hc
      simp only [Bool.or_eq_true, not_or, Bool.not_eq_true] at hc
      obtain ⟨sa, hsa, h⟩ := ok_of_bind h
      obtain ⟨sb, hsb, h⟩ := ok_of_bind h
      match sa, sb, h with
      | some p, some q, h =>
          simp only [pure, Except.pure, Except.ok.injEq] at h
          split at h
          · rename_i hoff
            exact .self hc.1 hc.2 hsa hsb hoff
          · cases h
      | none, none, h =>
          simp only [pure, Except.pure, Except.ok.injEq] at h
          split at h
          · rename_i hheap
            rw [Bool.and_eq_true] at hheap
            rw [← Option.some.inj h] at h'
            exact .pair hc.1 hc.2 hsa hsb hheap.1 hheap.2 h'
          · cases h

section Lockstep

variable {a b : ℕ} {S : Set (ℕ × ℕ)} (hS : ClosedPairs g S) (hfair : Fair g a b)

include hS

/-- How a pair of the closed set goes on. -/
theorem mem_cases {x y : ℕ} (hmem : (x, y) ∈ S) : LeafCase g x y :=
  leaf_cases (hS _ hmem).agree.leaf

/-- A capture counts as itself only if it is a charm. -/
theorem charm_read {u v : ℕ} (hmem : (u, v) ∈ S) :
    (if charmp u then u else 2) = if charmp v then v else 2 := by
  cases mem_cases hS hmem with
  | same h => rw [h]
  | coin _ hu hv => simp [(coinp_iff.mp hu).1, (coinp_iff.mp hv).1]
  | fn _ hu hv _ _ => simp [hu, hv]
  | data _ _ hu hv _ _ => simp [hu, hv]

include hfair

/-- A leaf of the closed set that both hashes read. -/
theorem dataHash_read {x y : ℕ} {d : DataKind} (hmem : (x, y) ∈ S) (hr : Read g a b .leaf x y)
    (hleaf : g.eqvLeaf x y = g.eqvData x y d) (hx : g.dat x = some d) (hy : g.dat y = some d)
    (hchain : d ≠ .chain) : g.dataHash x d = g.dataHash y d := by
  have hno := (hS _ hmem).agree.leaf
  simp only [hleaf] at hno
  apply dataHash_congr
  · rintro rfl
    exact hfair.gem x y hr hx hy
  · rintro rfl
    exact hfair.twin x y hr hx hy
  · cases d with
    | chain => exact absurd rfl hchain
    | tray =>
        simp only [eqvData] at hno ⊢
        split_ifs at hno ⊢ <;> simp_all
    | mint => simp [eqvData] at hno
    | nom => simp [eqvData] at hno
    | _ =>
        simp only [eqvData] at hno ⊢
        split_ifs at hno ⊢ <;> simp_all

/-- One word of two threads of the closed set. -/
theorem fnWordHash_read {d x y x' y' tx ty i : ℕ} (inner : ℕ → Except Halt ℕ)
    (hr : Read g a b (.fn d) x y) (hf : FnPair g x y x' y') (ht : Threads g x' y' tx ty)
    (hi : i < g.threadLen x' tx) (hreach : i < fnReach d)
    (hwords : ∀ q, WordPair g x' y' q → q ∈ S)
    {ps : List (ℕ × ℕ)}
    (hw : g.fnEqWord x' tx y' ty (g.cell x' i) (g.cell y' i) = .ok (some ps))
    (hinner : ∀ u v, (u, v) ∈ S → Read g a b (.fn (d - 1)) u v → inner u = inner v) :
    (do
      let self ← g.selfWord tx (g.cell x' i)
      g.fnWordHash inner d x' (g.cell x' i) self) =
    (do
      let self ← g.selfWord ty (g.cell y' i)
      g.fnWordHash inner d y' (g.cell y' i) self) := by
  cases word_cases hw with
  | same h =>
      obtain ⟨hnx, hny⟩ := hfair.self d x y x' y' tx ty i hr hf ht hi hreach h
      rw [← h, selfWord_congr hnx hny]
      cases hs : g.selfWord ty (g.cell x' i) with
      | error e => rfl
      | ok s =>
          cases s with
          | some p => exact absurd ⟨p, hs⟩ hny
          | none => rfl
  | self hx hy hp hq h =>
      simp only [hp, hq, bind, Except.bind, fnWordHash, hx, hy, Bool.false_eq_true, if_false, h]
  | pair hx hy hp hq hhx hhy h =>
      have hmem : (g.cell x' i, g.cell y' i) ∈ S := hwords _ (.word ht hi h)
      simp only [hp, hq, bind, Except.bind, fnWordHash, hx, hy, Bool.false_eq_true, if_false,
        hhx, hhy, if_true]
      cases d with
      | zero => rfl
      | succ d =>
          simp only [Nat.succ_ne_zero, if_false]
          cases mem_cases hS hmem with
          | same h => rw [h]
          | coin _ hcx hcy =>
              rw [coinp_iff] at hcx hcy
              have hdx := dat_of_coin hcx.2
              have hdy := dat_of_coin hcy.2
              simp only [hdx, hdy]
              exact hinner _ _ hmem (.held hr hf ht hi hreach hx hy hdx hdy)
          | fn _ _ _ hdx hdy =>
              simp only [hdx, hdy]
              exact hinner _ _ hmem (.held hr hf ht hi hreach hx hy hdx hdy)
          | data k hleaf _ _ hdx hdy =>
              simp only [hdx, hdy]
              cases k with
              | chain => rfl
              | _ =>
                  simp only
                  rw [dataHash_read hS hfair hmem (.heldLeaf hr hf ht hi hreach) hleaf hdx
                    hdy (by simp)]

variable (hlaid : Laid g a b)

include hlaid

/-- Two functions of the closed set that both hashes read. -/
theorem fnHashD_read (fuel : ℕ) {d x y : ℕ} (hmem : (x, y) ∈ S)
    (hr : Read g a b (.fn d) x y) : g.fnHashD fuel d x = g.fnHashD fuel d y := by
  induction fuel generalizing d x y with
  | zero => rfl
  | succ fuel ih =>
      obtain ⟨⟨hcx, hdx⟩, hcy, hdy⟩ := hlaid.fns d x y hr
      cases mem_cases hS hmem with
      | same h => rw [h]
      | coin _ hx hy =>
          exact fnHashD_coin (coinp_iff.mp hx).2 (coinp_iff.mp hy).2 (hlaid.left _ _ _ hr hx)
            (hlaid.right _ _ _ hr hy) _ _
      | data k _ _ _ hkx _ => simp [hdx] at hkx
      | fn hleaf _ _ _ _ =>
          have hset := hS _ hmem
          obtain ⟨x', y', hmx, hmy, hcase⟩ := hset.agree.fn hleaf
          simp only at hmx hmy hcase
          rw [fnHashD, fnHashD, hmx, hmy, ok_bind, ok_bind]
          rcases hcase with rfl | ⟨hf, hpart | hthr⟩
          · rfl
          · -- partials: the bases, then the captures one by one
            obtain ⟨bx, by', n, hp, hargs⟩ := hpart
            have hbase : (bx, by') ∈ S := hset.parts _ (.base hleaf hf hp)
            simp only [hf.leftHeap, hf.rightHeap, hf.leftCode, hf.rightCode, hp.left, hp.right,
              hp.leftBase, hp.rightBase, Bool.not_true, Bool.false_eq_true, if_false, if_true,
              ok_bind, ih hbase (.base hr hf hp)]
            congr 1
            funext hb
            apply foldlM_congr
            intro i hi h
            obtain ⟨u, v, hu, hv⟩ := hargs i (List.mem_range.mp hi)
            rw [hu, hv, ok_bind, ok_bind]
            rw [charm_read hS (hset.parts _ (.arg hleaf hf hp (List.mem_range.mp hi) hu hv))]
          · obtain ⟨tx, ty, ht, hwords⟩ := hthr
            have hpairs : ∀ q, WordPair g x' y' q → q ∈ S := fun q hq =>
              hset.parts q (.word hleaf hf hq)
            simp only [hf.leftHeap, hf.rightHeap, hf.leftCode, hf.rightCode, ht.left, ht.right,
              ht.leftTag, ht.rightTag, Bool.not_true, Bool.false_eq_true, if_false, ok_bind,
              ← ht.len]
            apply foldlM_congr
            intro i hi h
            have hi' := List.mem_range.mp hi
            have hword := fnWordHash_read hS hfair (g.fnHashD fuel (d - 1)) hr hf ht (by omega)
              (by omega) hpairs (hwords i (by omega)).choose_spec
              fun u v huv hruv => ih huv hruv
            rw [← bind_assoc, hword, bind_assoc]

omit hS hfair hlaid in
/-- Object trays that equality goes into: one shape, so as many elements. -/
theorem tray_shape {x y : ℕ} (h : g.eqvData x y .tray ≠ .no) :
    g.objtrayp x = g.objtrayp y ∧
      (g.objtrayp x = true → g.trayNelem x = g.trayNelem y ∧ g.eqvData x y .tray = .tray) := by
  by_cases hobj : (g.objtrayp x || g.objtrayp y) = true
  · simp only [eqvData, if_pos hobj] at h ⊢
    split at h
    · rename_i hsame
      rw [if_pos hsame]
      simp only [Bool.and_eq_true, beq_iff_eq, List.all_eq_true, List.mem_range] at hsame
      obtain ⟨⟨⟨hx, hy⟩, hrank⟩, hshape⟩ := hsame
      refine ⟨hx.trans hy.symm, fun _ => ⟨?_, rfl⟩⟩
      rw [trayNelem, trayNelem, ← hrank]
      apply List.foldl_ext
      intro n k hk
      rw [hshape k (List.mem_range.mp hk)]
    · exact absurd rfl h
  · simp only [Bool.or_eq_true, not_or, Bool.not_eq_true] at hobj
    exact ⟨hobj.1.trans hobj.2.symm, fun hx => by simp [hobj.1] at hx⟩

/-- Two values that the walks read side by side: one value, or a pair of the closed set. -/
def Beside (g : Core) (a b : ℕ) (S : Set (ℕ × ℕ)) (x y : ℕ) : Prop :=
  x = y ∨ (x, y) ∈ S ∧ Read g a b .walk x y

omit hfair hlaid in
theorem chain_read {x y : ℕ} (h : Beside g a b S x y) :
    g.chainp x = g.chainp y ∧ (g.chainp x = true →
      Beside g a b S (g.cell x 1) (g.cell y 1) ∧ Beside g a b S (g.cell x 2) (g.cell y 2)) := by
  rcases h with rfl | ⟨hmem, hr⟩
  · exact ⟨rfl, fun _ => ⟨.inl rfl, .inl rfl⟩⟩
  · have hno : ∀ z, g.dat z = none → g.chainp z = false := by
      intro z hz
      by_contra hc
      simp only [chainp, Bool.not_eq_false, Bool.and_eq_true, beq_iff_eq] at hc
      simp [dat, hc.2] at hz
    have hdat : ∀ z d, charmp z = false → g.dat z = some d → g.chainp z = (d == .chain) := by
      intro z d hz hd
      cases hap : g.ap z with
      | data d' =>
          obtain rfl : d' = d := by simpa [dat, hap] using hd
          cases d' <;> simp [chainp, hz, hap]
      | _ => simp [dat, hap] at hd
    cases mem_cases hS hmem with
    | same h =>
        subst h
        exact ⟨rfl, fun _ => ⟨.inl rfl, .inl rfl⟩⟩
    | coin _ hx hy =>
        rw [hno x (dat_of_coin (coinp_iff.mp hx).2), hno y (dat_of_coin (coinp_iff.mp hy).2)]
        exact ⟨rfl, fun h => absurd h (by simp)⟩
    | fn _ _ _ hdx hdy =>
        rw [hno x hdx, hno y hdy]
        exact ⟨rfl, fun h => absurd h (by simp)⟩
    | data d hleaf hx hy hdx hdy =>
        have hcx := hdat x d hx hdx
        have hcy := hdat y d hy hdy
        refine ⟨hcx.trans hcy.symm, fun hc => ?_⟩
        obtain rfl : d = .chain := by simpa [hcx] using hc
        have hcy' : g.chainp y = true := by simp [hcy]
        have hset := hS _ hmem
        exact ⟨.inr ⟨hset.parts _ (.car hleaf), .car hr hc hcy'⟩,
          .inr ⟨hset.parts _ (.cdr hleaf), .cdr hr hc hcy'⟩⟩

/-- Values that are no chains have one leaf hash, and go on alike. -/
theorem hashLeaf_read {x y : ℕ} (h : Beside g a b S x y) (hc : g.chainp x = false) :
    g.hashLeaf x = g.hashLeaf y ∧ ∀ t, g.hashLeaf x = .ok (t, true) →
      g.trayNelem x = g.trayNelem y ∧
        List.Forall₂ (Beside g a b S) (g.trayCells x) (g.trayCells y) := by
  have hsame : ∀ z, List.Forall₂ (Beside g a b S) (g.trayCells z) (g.trayCells z) := fun z =>
    List.forall₂_same.mpr fun _ _ => .inl rfl
  rcases h with rfl | ⟨hmem, hr⟩
  · exact ⟨rfl, fun _ _ => ⟨rfl, hsame x⟩⟩
  · cases mem_cases hS hmem with
    | same h =>
        subst h
        exact ⟨rfl, fun _ _ => ⟨rfl, hsame x⟩⟩
    | coin _ hx hy =>
        have hx' := coinp_iff.mp hx
        have hy' := coinp_iff.mp hy
        have hfn := fnHashD_read hS hfair hlaid g.steps hmem
          (.fn hr hx'.1 hy'.1 (dat_of_coin hx'.2) (dat_of_coin hy'.2))
        simp only [hashLeaf, hx'.1, hy'.1, dat_of_coin hx'.2, dat_of_coin hy'.2, fnHash, hfn,
          Bool.false_eq_true, if_false, true_and]
        intro t ht
        obtain ⟨_, -, h⟩ := ok_of_bind ht
        cases h
    | fn _ hx hy hdx hdy =>
        have hfn := fnHashD_read hS hfair hlaid g.steps hmem (.fn hr hx hy hdx hdy)
        simp only [hashLeaf, hx, hy, hdx, hdy, fnHash, hfn, Bool.false_eq_true, if_false, true_and]
        intro t ht
        obtain ⟨_, -, h⟩ := ok_of_bind ht
        cases h
    | data d hleaf hx hy hdx hdy =>
        have hset := hS _ hmem
        have hchain : d ≠ .chain := by
          rintro rfl
          cases hap : g.ap x with
          | data d' =>
              obtain rfl : d' = .chain := by simpa [dat, hap] using hdx
              simp [chainp, hx, hap] at hc
          | _ => simp [dat, hap] at hdx
        have hdata := dataHash_read hS hfair hmem (.leaf hr) hleaf hdx hdy hchain
        simp only [hashLeaf, hx, hy, hdx, hdy, hdata, Bool.false_eq_true, if_false]
        by_cases htray : d = .tray
        · subst htray
          have hno := hset.agree.leaf
          simp only [hleaf] at hno
          obtain ⟨hobj, hshape⟩ := tray_shape hno
          refine ⟨by rw [hobj], fun t ht => ?_⟩
          have hox : g.objtrayp x = true := by
            simp only [beq_self_eq_true, Bool.true_and, Except.ok.injEq, Prod.mk.injEq] at ht
            exact ht.2
          obtain ⟨hn, hstep⟩ := hshape hox
          refine ⟨hn, ?_⟩
          rw [trayCells, trayCells, ← hn, List.forall₂_map_left_iff, List.forall₂_map_right_iff,
            List.forall₂_same]
          intro i hi
          have hi' := List.mem_range.mp hi
          exact .inr ⟨hset.parts _ (.elem (hleaf.trans hstep) hi'),
            .elem hr hox (hobj ▸ hox) hi'⟩
        · have hbeq : (d == DataKind.tray) = false := by simp [htray]
          simp only [hbeq, Bool.false_and, true_and]
          intro t ht
          simp at ht

/-- The two value walks, side by side. -/
theorem hashAt_read (room fuel : ℕ) {x y h : ℕ} {fold : Bool} {sw sw' : List ℕ}
    (hxy : Beside g a b S x y) (hsw : List.Forall₂ (Beside g a b S) sw sw') :
    g.hashAt room fuel x h fold sw = g.hashAt room fuel y h fold sw' := by
  induction fuel generalizing x y h fold sw sw' with
  | zero => rfl
  | succ fuel ih =>
      have hlen := hsw.length_eq
      obtain ⟨hchain, hparts⟩ := chain_read hS hxy
      rw [hashAt, hashAt, ← hchain, ← hlen]
      by_cases hc : g.chainp x = true
      · simp only [hc, if_true]
        obtain ⟨hcar, hcdr⟩ := hparts hc
        split
        · rfl
        · exact ih hcdr (.cons hcar hsw)
      · rw [Bool.not_eq_true] at hc
        simp only [hc, Bool.false_eq_true, if_false]
        obtain ⟨hleaf, hcells⟩ := hashLeaf_read hS hfair hlaid hxy hc
        rw [← hleaf]
        cases hl : g.hashLeaf x with
        | error e => rfl
        | ok r =>
            obtain ⟨t, obj⟩ := r
            simp only [ok_bind]
            cases obj with
            | false =>
                simp only [Bool.false_and, Bool.false_eq_true, if_false, Bool.or_false]
                cases hsw with
                | nil => rfl
                | cons hy hrest =>
                    simp only
                    rw [ih hy hrest]
            | true =>
                obtain ⟨hn, hel⟩ := hcells t hl
                have hall : List.Forall₂ (Beside g a b S) (g.trayCells x ++ sw)
                    (g.trayCells y ++ sw') := List.rel_append hel hsw
                simp only [← hn, if_true, Bool.or_true]
                generalize g.trayCells x ++ sw = l at hall ⊢
                generalize g.trayCells y ++ sw' = l' at hall ⊢
                cases hall with
                | nil => rfl
                | cons hy hrest =>
                    simp only
                    rw [ih hy hrest]

end Lockstep

/-! ## The result -/

/-- **Equal keys hash alike** when no pair the hashes read side by side is a zero of two signs
or a word that points back into one of two threads. -/
theorem hash_eq_of_eqv {fuel room a b : ℕ} (hlaid : Laid g a b) (hfair : Fair g a b)
    (h : g.eqv fuel room a b = .ok true) (fuel' room' : ℕ) :
    g.hash fuel' room' a = g.hash fuel' room' b := by
  have hclosed : ∃ S, (a, b) ∈ S ∧ ClosedPairs g S := by
    rcases eqv_closed h with hleaf | hS
    · refine ⟨{(a, b)}, rfl, ?_⟩
      rintro p rfl
      refine settles_of_leaf (by simp [hleaf]) (by simp [hleaf]) fun q hq => ?_
      cases hq <;> simp_all
    · exact hS
  obtain ⟨S, hmem, hS⟩ := hclosed
  have hbeside : Beside g a b S a b := .inr ⟨hmem, .start⟩
  have hcharm : charmp a = true ∨ charmp b = true → a = b := by
    intro hc
    cases mem_cases hS hmem with
    | same h => exact h
    | coin _ ha hb => simp [(coinp_iff.mp ha).1, (coinp_iff.mp hb).1] at hc
    | fn _ ha hb _ _ => simp [ha, hb] at hc
    | data _ _ ha hb _ _ => simp [ha, hb] at hc
  by_cases hab : a = b
  · rw [hab]
  · have ha : charmp a = false := by
      by_contra hc
      exact hab (hcharm (.inl (by simpa using hc)))
    have hb : charmp b = false := by
      by_contra hc
      exact hab (hcharm (.inr (by simpa using hc)))
    obtain ⟨hchain, -⟩ := chain_read hS hbeside
    unfold Core.hash
    rw [ha, hb, ← hchain]
    by_cases hc : g.chainp a = true
    · simp only [hc, if_true, Bool.false_eq_true, if_false]
      exact hashAt_read hS hfair hlaid room' fuel' hbeside .nil
    · rw [Bool.not_eq_true] at hc
      simp only [hc, Bool.false_eq_true, if_false]
      obtain ⟨hleaf, -⟩ := hashLeaf_read hS hfair hlaid hbeside hc
      rw [hleaf, hashAt_read hS hfair hlaid room' fuel' hbeside .nil]

end LoveRuntime
