import LoveRuntime.Verification.Bzip2.Stepwise

/-! The steps over the whole follow `bz_dec` from block to block; so do the steps over any
prefixes that grow to it. -/

namespace LoveRuntime.Bzip2

open Loop PrefixReads

variable {s : List UInt8}

/-- The verdict the steps over the whole of `s` come to, and all they put out. -/
inductive Reaches (s : List UInt8) : StepState → List UInt8 → ℤ × List UInt8 → Prop
  | stop {S S' : StepState} {w : Sink} {rc : ℤ} (out : List UInt8)
      (hstep : bzStep S s true Sink.empty = (rc, S', w)) (hrc : rc ≠ 0) (hmore : rc ≠ bzMore) :
      Reaches s S out (verdict rc, out ++ w.p)
  | step {S S' : StepState} {w : Sink} {out : List UInt8} {res : ℤ × List UInt8}
      (hstep : bzStep S s true Sink.empty = (0, S', w)) (hlt : S.bit < S'.bit)
      (hle : S'.bit ≤ s.length * 8) (hrest : Reaches s S' (out ++ w.p) res) : Reaches s S out res

theorem Reaches.whole {S : StepState} {out : List UInt8} {res : ℤ × List UInt8} (h : Reaches s S out res)
    {fuel : ℕ} (hbit : S.bit ≤ s.length * 8) (hfuel : s.length * 8 < S.bit + fuel) :
    stepWhole s fuel S out = res := by
  induction h generalizing fuel with
  | stop out hstep hrc hmore =>
      obtain ⟨fuel, rfl⟩ := Nat.exists_eq_succ_of_ne_zero (show fuel ≠ 0 by omega)
      rw [stepWhole, hstep]
      exact if_neg hrc
  | step hstep hlt hle _ ih =>
      obtain ⟨fuel, rfl⟩ := Nat.exists_eq_succ_of_ne_zero (show fuel ≠ 0 by omega)
      rw [stepWhole, hstep]
      exact (if_pos rfl).trans (ih hle (by omega))

/-- Steps over prefixes come to the same. -/
theorem Reaches.run {S : StepState} {out : List UInt8} {res : ℤ × List UInt8} (h : Reaches s S out res)
    (ns : List ℕ) (hgrow : ns.Pairwise (· ≤ ·)) (hns : ∀ n ∈ ns, n ≤ s.length ∧ S.bit ≤ n * 8)
    (hbit : S.bit ≤ s.length * 8) : stepRun s ns S out = res := by
  induction ns generalizing S out with
  | nil => exact h.whole hbit (by omega)
  | cons n ns ih =>
      obtain ⟨hn, hgrow'⟩ := List.pairwise_cons.mp hgrow
      obtain ⟨⟨hle, hbit'⟩, hns'⟩ := List.forall_mem_cons.mp hns
      have hlen : (s.take n).length = n := by rw [List.length_take, Nat.min_eq_left hle]
      have hpre := bzStep_front (List.take_prefix n s) (by rwa [hlen]) Sink.empty
      rw [stepRun]
      rcases hpre with hmore | ⟨heq, hbound⟩
      · rw [hmore]
        dsimp only
        rw [if_pos (Or.inr rfl), show Sink.empty.p = [] from rfl, List.append_nil]
        exact ih h hgrow' hns' hbit
      · rw [hlen] at hbound
        rw [heq] at hbound ⊢
        cases h with
        | stop _ hstep hrc hmore =>
            rw [hstep]
            exact if_neg (by simp [hrc, hmore])
        | step hstep hlt hle' hrest =>
            rw [hstep] at hbound ⊢
            dsimp only
            rw [if_pos (Or.inl rfl)]
            exact ih hrest hgrow' (fun m hm => ⟨(hns' m hm).1,
              Nat.le_trans (hbound rfl) (Nat.mul_le_mul_right 8 (hn m hm))⟩) hle'

/-! ### Block by block -/

/-- Two readers at one place: both run off the end, or read alike. -/
theorem Alike.twice {α : Type} {P : α → Prop} {m : Rd α} (h : Alike s s P m m) {r r' : Reader}
    (hr : Over s r) (hr' : Over s r') (heq : brUsed r = brUsed r') :
    s.length * 8 < brUsed (m.run.run r).2 ∧ s.length * 8 < brUsed (m.run.run r').2 ∨
      (m.run.run r).1 = (m.run.run r').1 ∧ brUsed (m.run.run r).2 = brUsed (m.run.run r').2 := by
  rcases h.both r r' hr hr' heq with hoff | hsame
  · rcases h.both r' r hr' hr heq.symm with hoff' | ⟨hx, hplace⟩
    · exact .inl ⟨hoff, hoff'⟩
    · exact .inr ⟨hx.symm, hplace.symm⟩
  · exact .inr hsame

/-- Nonsense read off the end is a short stream. -/
def settled (s : List UInt8) (rc : ℤ) (r : Reader) : ℤ := if rc = 2 ∧ s.length * 8 < brUsed r then 3 else rc

/-- Where a stream's blocks leave `bz_dec` and the steps. -/
structure Ended (s : List UInt8) (S : StepState) (w : Sink) (rc : ℤ) (q : Reader) (w' : Sink) : Prop where
  next : rc = 0 → Over s q ∧ Roomy w' ∧ ∃ S' : StepState, S'.mode = 0 ∧ S'.bit = brUsed q ∧
    8 ∣ S'.bit ∧ S.bit < S'.bit ∧ S'.bit ≤ s.length * 8 ∧ S'.nstream = S.nstream + 1 ∧
    ∀ res, Reaches s S' w'.p res → Reaches s S w.p res
  stop : rc ≠ 0 → Reaches s S w.p (settled s rc q, w'.p)

theorem settled_of_ne {rc : ℤ} (h : rc ≠ 2) (r : Reader) : settled s rc r = rc := if_neg fun h' => h h'.1

/-- The codes an input can be refused with. -/
def Refusal (rc : ℤ) : Prop := rc = 2 ∨ rc = 3 ∨ rc = 4

theorem settled_refusal {rc : ℤ} (h : Refusal rc) (r : Reader) : Refusal (settled s rc r) := by
  unfold settled
  split
  · exact .inr (.inl rfl)
  · exact h

theorem Reaches.refuse {S : StepState} {w : Sink} {rc : ℤ} (out : List UInt8) (hrc : Refusal rc)
    (hstep : bzStep S s true Sink.empty = (rc, S, w)) : Reaches s S out (rc, out ++ w.p) := by
  have hverdict : verdict rc = rc := by
    rcases hrc with rfl | rfl | rfl <;> decide
  have h := Reaches.stop out hstep (by rcases hrc with rfl | rfl | rfl <;> decide)
    (by rcases hrc with rfl | rfl | rfl <;> decide)
  rwa [hverdict] at h

theorem Ended.refuse {S : StepState} {w w' w1 : Sink} {rc : ℤ} {q : Reader} (hrc : Refusal rc)
    (hstep : bzStep S s true Sink.empty = (settled s rc q, S, w1)) (hp : w'.p = w.p ++ w1.p) :
    Ended s S w rc q w' where
  next h0 := by rcases hrc with rfl | rfl | rfl <;> exact absurd h0 (by decide)
  stop _ := hp ▸ Reaches.refuse w.p (settled_refusal hrc q) hstep

theorem Ended.step {S S' : StepState} {w w1 w2 w' : Sink} {rc : ℤ} {q : Reader}
    (hstep : bzStep S s true Sink.empty = (0, S', w1)) (hlt : S.bit < S'.bit)
    (hle : S'.bit ≤ s.length * 8) (hn : S'.nstream = S.nstream) (hp : w2.p = w.p ++ w1.p)
    (h : Ended s S' w2 rc q w') : Ended s S w rc q w' where
  next h0 := by
    obtain ⟨hq, hw', S'', hmode, hbit, hdvd, hlt', hle', hn', hreach⟩ := h.next h0
    refine ⟨hq, hw', S'', hmode, hbit, hdvd, Nat.lt_trans hlt hlt', hle', by rw [hn', hn], fun res hres => ?_⟩
    exact .step hstep hlt hle (hp ▸ hreach res hres)
  stop h0 := .step hstep hlt hle (hp ▸ h.stop h0)

theorem append_empty (w : Sink) : w.p = w.p ++ Sink.empty.p := (List.append_nil _).symm

theorem blockOut_good {x : ℕ × ℕ × List ℕ} {w : Sink} (h : (blockOut x w).1 = 0) :
    (blockOut x w).2.2.bad = false := by
  unfold blockOut at h ⊢
  dsimp only at h ⊢
  by_cases hbad : (walkOut (links x.2.2) x.2.2.length x.2.1 w).w.bad = true
  case pos =>
      rw [if_pos hbad] at h
      exact absurd (show (-1 : ℤ) = 0 from h) (by decide)
  case neg =>
      rw [if_neg hbad]
      split <;> simpa using hbad

theorem decBlocks_steps (level fuel : ℕ) {all : ℕ} {r q : Reader} {w w' : Sink} {rc : ℤ} {S : StepState}
    (hr : Over s r) (hbit : brUsed r = S.bit) (hmode : S.mode ≠ 0) (hlevel : S.level = level)
    (hall : S.all = all) (hle : S.bit ≤ s.length * 8) (hfuel : s.length * 8 < S.bit + 8 * fuel)
    (hw : Roomy w) (hdec : decBlocks level fuel all r w = (rc, q, w'))
    (hgood : rc ≠ 0 → w'.bad = false) :
    Ended s S w rc q w' := by
  induction fuel generalizing all r w S with
  | zero => omega
  | succ fuel ih =>
      obtain ⟨r1, hr1, hat1, hmagic⟩ := readMagic_run s S.bit
      obtain ⟨m, q1, hrun, hq1, hused⟩ := magic_over hr
      obtain ⟨m', t1, hrun', ht1, hused'⟩ := magic_over hr1
      have hsame := (magic_alike (List.prefix_refl s)).twice hr hr1 (hbit.trans hat1.symm)
      rw [hrun, hrun'] at hsame
      have hstep := bzStep.eq_1 S s true Sink.empty
      rw [if_neg hmode, hmagic, hrun'] at hstep
      unfold magic at hrun
      rw [decBlocks, hrun] at hdec
      obtain ⟨m1, m2⟩ := m
      dsimp only at hdec hsame hstep
      rw [hq1.source] at hdec
      have hqt : brUsed q1 = brUsed t1 := by omega
      by_cases hoff : s.length * 8 < brUsed q1
      case pos =>
          rw [if_pos hoff] at hdec
          rw [if_pos (hqt ▸ hoff)] at hstep
          obtain ⟨rfl, rfl, rfl⟩ : 3 = rc ∧ q1 = q ∧ w = w' := by simpa using hdec
          exact .refuse (.inr (.inl rfl)) hstep (append_empty w)
      rw [if_neg hoff] at hdec
      rw [if_neg (hqt ▸ hoff)] at hstep
      obtain ⟨hm, -⟩ := hsame.resolve_left fun h => hoff h.1
      obtain rfl : (m1, m2) = m' := by injection hm
      dsimp only at hstep
      by_cases hblock : m1 = 0x314159 ∧ m2 = 0x265359
      case pos =>
          rw [if_pos hblock] at hdec hstep
          subst hlevel
          have hb := (readBlock_alike (List.prefix_refl s) S.level).twice hq1 ht1 hqt
          have hlx := (readBlock_alike (List.prefix_refl s) S.level).left q1 hq1
          have hly := (readBlock_alike (List.prefix_refl s) S.level).left t1 ht1
          have hendx := readBlock_ends S.level q1
          have hendy := readBlock_ends S.level t1
          generalize hx : (readBlock S.level).run.run q1 = x at hb hlx hendx
          generalize hy : (readBlock S.level).run.run t1 = y at hb hly hendy
          obtain ⟨x, q2⟩ := x
          obtain ⟨y, t2⟩ := y
          dsimp only at hb hlx hly hendx hendy
          rw [hlx.1.source] at hendx
          rw [hly.1.source] at hendy
          cases x with
          | error e =>
              have he := hlx.2.2.2 e rfl
              have he0 : e ≠ 0 ∧ ¬ e < 0 := by rcases he with rfl | rfl <;> decide
              rw [bzDblock_error hx] at hdec
              dsimp only at hdec
              rw [if_pos he0.1] at hdec
              obtain ⟨rfl, rfl, rfl⟩ : e = rc ∧ q2 = q ∧ w = w' := by simpa using hdec
              have hstep' : bzStep S s true Sink.empty = (settled s e q2, S, Sink.empty) := by
                cases y with
                | ok y => exact absurd (hendy y rfl) (by rcases hb with hb | hb <;> [omega; simp at hb])
                | error e' =>
                    have he' : e' ≠ 0 := by
                      rcases hly.2.2.2 e' rfl with rfl | rfl <;> decide
                    rw [bzDblock_error hy] at hstep
                    dsimp only at hstep
                    rcases hb with ⟨hoffx, hoffy⟩ | ⟨hxy, hplace⟩
                    · rw [if_pos ⟨he', hoffy⟩] at hstep
                      rw [hstep]
                      rcases he with rfl | rfl
                      · rw [settled, if_pos ⟨rfl, hoffx⟩]
                        rfl
                      · rw [settled_of_ne (by decide)]
                        rfl
                    · obtain rfl : e = e' := by injection hxy
                      rw [← hplace, if_pos he', if_neg he0.2] at hstep
                      rw [hstep]
                      rcases he with rfl | rfl
                      · by_cases hoffx : s.length * 8 < brUsed q2
                        · rw [settled, if_pos ⟨he', hoffx⟩, if_pos ⟨rfl, hoffx⟩]
                          rfl
                        · rw [settled, if_neg fun h => hoffx h.2, if_neg fun h => hoffx h.2]
                      · rw [settled_of_ne (by decide)]
                        split <;> rfl
              exact .refuse (he.imp_right .inl) hstep' (append_empty w)
          | ok x =>
              have hin := hendx x rfl
              obtain ⟨hxy, hplace⟩ := hb.resolve_left fun h => Nat.not_lt.mpr hin h.1
              obtain rfl := hxy
              rw [bzDblock_ok hx] at hdec
              rw [bzDblock_ok hy] at hstep
              dsimp only at hdec hstep
              have hin' : ∀ c : Prop, ¬ (c ∧ s.length * 8 < brUsed t2) := fun _ h => by omega
              rw [if_neg (hin' _)] at hstep
              have hout : (blockOut x w).2.2.bad = false := by
                by_cases h0 : (blockOut x w).1 = 0
                · exact blockOut_good h0
                · rw [if_pos h0] at hdec
                  obtain ⟨rfl, -, rfl⟩ : (blockOut x w).1 = rc ∧ q2 = q ∧ (blockOut x w).2.2 = w' := by
                    simpa using hdec
                  exact hgood h0
              obtain ⟨hcode, hroom, hrc, hsum, hp⟩ := blockOut_fresh x hw hout
              rw [hrc, hsum] at hstep
              by_cases h0 : (blockOut x w).1 = 0
              case pos =>
                  rw [if_neg (not_not.mpr h0)] at hdec hstep
                  have hused2 : brUsed q1 ≤ brUsed q2 := hlx.2.1
                  refine .step hstep ?_ ?_ rfl hp
                    (ih (S := { S with all := _, bit := _ }) hlx.1 hplace hmode rfl ?_ ?_ ?_ hroom hdec)
                  · change S.bit < brUsed t2
                    omega
                  · change brUsed t2 ≤ _
                    omega
                  · exact hall ▸ rfl
                  · change brUsed t2 ≤ _
                    omega
                  · change _ < brUsed t2 + 8 * fuel
                    omega
              case neg =>
                  have h4 : (blockOut x w).1 = 4 := hcode.resolve_left h0
                  rw [if_pos h0] at hdec hstep
                  rw [h4] at hdec hstep
                  obtain ⟨rfl, rfl, rfl⟩ : 4 = rc ∧ q2 = q ∧ (blockOut x w).2.2 = w' := by simpa using hdec
                  refine .refuse (.inr (.inr rfl)) (hstep.trans ?_) hp
                  rw [settled_of_ne (by decide)]
                  rfl
      rw [if_neg hblock] at hdec hstep
      by_cases hend : m1 = 0x177245 ∧ m2 = 0x385090
      case pos =>
          rw [if_pos hend] at hdec hstep
          obtain ⟨v, q2, hv, hq2, hused2, -⟩ := brGet_over hq1 (show 32 ≤ 57 by omega)
          obtain ⟨v', t2, hv', ht2, hused2', -⟩ := brGet_over ht1 (show 32 ≤ 57 by omega)
          have hb := (brGet_alike (List.prefix_refl s) (show 32 ≤ 57 by omega)).twice hq1 ht1 hqt
          rw [hv, hv'] at hb
          rw [hv] at hdec
          rw [stepSum, hv'] at hstep
          dsimp only at hb hdec hstep
          by_cases hoff2 : s.length * 8 < brUsed q2
          case pos =>
              rw [if_pos (show q2.p.length * 8 < brUsed q2 by rwa [hq2.source])] at hdec
              rw [if_pos (show s.length * 8 < brUsed t2 by omega)] at hstep
              obtain ⟨rfl, rfl, rfl⟩ :
                  3 = rc ∧ { q2 with k := q2.k - q2.k % 8 } = q ∧ w = w' := by simpa using hdec
              exact .refuse (.inr (.inl rfl)) (hstep.trans (by rw [settled_of_ne (by decide)]; rfl)) (append_empty w)
          have hon : ¬ s.length * 8 < brUsed t2 := by omega
          rw [if_neg (show ¬ q2.p.length * 8 < brUsed q2 by rwa [hq2.source])] at hdec
          rw [if_neg hon, brUsed_align ht2] at hstep
          obtain ⟨hvv, -⟩ := hb.resolve_left fun h => hoff2 h.1
          obtain rfl : v = v' := by injection hvv
          subst hall
          by_cases hsum : v ≠ S.all
          case pos =>
              rw [if_pos hsum] at hdec hstep
              obtain ⟨rfl, rfl, rfl⟩ :
                  4 = rc ∧ { q2 with k := q2.k - q2.k % 8 } = q ∧ w = w' := by simpa using hdec
              refine .refuse (.inr (.inr rfl)) (hstep.trans ?_) (append_empty w)
              rw [settled_of_ne (by decide)]
          case neg =>
              rw [if_neg hsum] at hdec hstep
              obtain ⟨rfl, rfl, rfl⟩ :
                  0 = rc ∧ { q2 with k := q2.k - q2.k % 8 } = q ∧ w = w' := by simpa using hdec
              have halign := brUsed_align hq2
              refine ⟨fun _ => ⟨hq2.pass _, hw, _, rfl, ?_, ?_, ?_, ?_, rfl, fun res hres =>
                .step hstep ?_ ?_ (by rwa [← append_empty])⟩, fun h => absurd rfl h⟩
              all_goals dsimp only
              all_goals omega
      rw [if_neg hend] at hdec hstep
      obtain ⟨rfl, rfl, rfl⟩ : 2 = rc ∧ q1 = q ∧ w = w' := by simpa using hdec
      refine .refuse (.inl rfl) ?_ (append_empty w)
      rw [hstep, settled, if_neg fun h => hoff h.2]

theorem decStreams_steps (fuel : ℕ) {n : ℕ} {r q : Reader} {w w' : Sink} {rc : ℤ} {S : StepState}
    (hr : Over s r) (hbit : brUsed r = S.bit) (hmode : S.mode = 0) (hn : S.nstream = n)
    (hle : S.bit ≤ s.length * 8) (hfuel : s.length * 8 < S.bit + 8 * fuel) (hw : Roomy w)
    (hdec : decStreams s fuel n r w = (rc, q, w')) (hgood : w'.bad = false) :
    Reaches s S w.p (settled s rc q, w'.p) := by
  induction fuel generalizing n r w S with
  | zero => omega
  | succ fuel ih =>
      have hstep := bzStep.eq_1 S s true Sink.empty
      have hwait : ∀ c : Prop, ¬ (c ∧ true = false) := fun _ h => Bool.noConfusion h.2
      rw [if_pos hmode, stepHead, if_neg (hwait _)] at hstep
      rw [decStreams, hbit] at hdec
      dsimp only at hdec
      by_cases hhead : headAt s (S.bit / 8) = true
      case pos =>
          rw [if_pos hhead] at hdec hstep
          have hin : S.bit / 8 + 4 ≤ s.length := by
            unfold headAt at hhead
            simp only [Bool.and_eq_true, decide_eq_true_eq] at hhead
            omega
          have hstart : Over s { r with i := S.bit / 8 + 4, k := 0, acc := 0 } := by
            rw [← hr.source]
            exact Over.start r.p _
          generalize hblocks : decBlocks _ (s.length + 1) 0 _ w = res at hdec
          obtain ⟨rc1, q1, w1⟩ := res
          dsimp only at hdec
          have hused : brUsed { r with i := S.bit / 8 + 4, k := 0, acc := 0 } = (S.bit / 8 + 4) * 8 := rfl
          have hended := @decBlocks_steps s _ _ _ _ _ _ _ _
            { S with level := (s.getD (S.bit / 8 + 3) 0).toNat - 48, all := 0, mode := 1,
                     bit := (S.bit / 8 + 4) * 8 } hstart rfl Nat.one_ne_zero rfl rfl
            (Nat.mul_le_mul_right 8 hin) (by dsimp only; omega) hw hblocks fun h0 => by
              rw [if_pos h0] at hdec
              obtain ⟨-, -, rfl⟩ : rc1 = rc ∧ q1 = q ∧ w1 = w' := by simpa using hdec
              exact hgood
          refine .step hstep ?_ (Nat.mul_le_mul_right 8 hin) ?_
          · change S.bit < (S.bit / 8 + 4) * 8
            omega
          rw [← append_empty]
          by_cases h0 : rc1 = 0
          case pos =>
              rw [if_neg (not_not.mpr h0)] at hdec
              obtain ⟨hq1, hw1, S', hmode', hbit', hdvd, hlt, hle', hn', hreach⟩ := hended.next h0
              have hlt' : (S.bit / 8 + 4) * 8 < S'.bit := hlt
              exact hreach _ (ih hq1 hbit'.symm hmode' (hn'.trans (by rw [← hn])) hle' (by omega) hw1 hdec)
          case neg =>
              rw [if_pos h0] at hdec
              obtain ⟨rfl, rfl, rfl⟩ : rc1 = rc ∧ q1 = q ∧ w1 = w' := by simpa using hdec
              exact hended.stop h0
      case neg =>
          rw [if_neg hhead] at hdec hstep
          obtain ⟨rfl, rfl, rfl⟩ := by simpa only [Prod.mk.injEq] using hdec
          have hin : S.bit / 8 ≤ s.length := by omega
          have hcode : ∀ short : Prop, [Decidable short] →
              let rc : ℤ := if n ≠ 0 then 0 else if short then 3 else 1
              let rc' : ℤ := if n ≠ 0 then bzDone else if short then 3 else 1
              rc' ≠ 0 ∧ rc' ≠ bzMore ∧ verdict rc' = rc ∧ rc ≠ 2 := by
            intro short _
            dsimp only
            split
            · decide
            · split <;> decide
          obtain ⟨hne, hmore, hverdict, h2⟩ := hcode (s.length < S.bit / 8 + 4 ∧
            (s.drop (S.bit / 8)).take 3 = ([66, 90, 104] : List UInt8).take (s.length - S.bit / 8))
          have hshort : ∀ c : Prop, (S.bit / 8 ≤ s.length ∧ s.length < S.bit / 8 + 4) ∧ c ↔
              s.length < S.bit / 8 + 4 ∧ c := fun c =>
            ⟨fun h => ⟨h.1.2, h.2⟩, fun h => ⟨⟨hin, h.1⟩, h.2⟩⟩
          simp only [hn, hshort] at hstep
          have hstop := Reaches.stop w.p hstep hne hmore
          rw [hverdict, ← append_empty] at hstop
          rwa [settled_of_ne h2]

/-! ### Nothing is left behind by a step that waits -/

theorem bzDblock_code (level : ℕ) {p : List UInt8} {r : Reader} (hr : Over p r) (w : Sink) :
    (bzDblock level r w).1 ≠ bzMore := by
  have hl := (readBlock_alike (List.prefix_refl p) level).left r hr
  generalize hx : (readBlock level).run.run r = x at hl
  obtain ⟨x, q⟩ := x
  cases x with
  | error e =>
      rw [bzDblock_error hx]
      rcases hl.2.2.2 e rfl with rfl | rfl <;> (dsimp only; decide)
  | ok x =>
      rw [bzDblock_ok hx]
      dsimp only
      have hcode : (blockOut x w).1 = -1 ∨ (blockOut x w).1 = 4 ∨ (blockOut x w).1 = 0 := by
        unfold blockOut
        dsimp only
        split
        · exact .inl rfl
        · split
          · exact .inr (.inl rfl)
          · exact .inr (.inr rfl)
      rcases hcode with h | h | h <;> (rw [h]; decide)

theorem stepHead_waits {S : StepState} {p : List UInt8} {eof : Bool} (h : (stepHead S p eof).1 = bzMore) :
    (stepHead S p eof).2 = S := by
  unfold stepHead at h ⊢
  dsimp only at h ⊢
  split
  case isTrue => rfl
  case isFalse hno =>
      rw [if_neg hno] at h
      split
      case isTrue hhead =>
          rw [if_pos hhead] at h
          exact absurd (show (0 : ℤ) = bzMore from h) (by decide)
      case isFalse => rfl

theorem stepSum_waits {S : StepState} {p : List UInt8} {eof : Bool} {r : Reader} (hr : Over p r)
    (h : (stepSum S p eof r).1 = bzMore) : (stepSum S p eof r).2 = S := by
  obtain ⟨v, q, hv, -⟩ := brGet_over hr (show 32 ≤ 57 by omega)
  rw [stepSum, hv] at h ⊢
  dsimp only at h ⊢
  split
  case isTrue => rfl
  case isFalse hoff =>
      rw [if_neg hoff] at h
      split
      case isTrue => rfl
      case isFalse hsum =>
          rw [if_neg hsum] at h
          exact absurd (show (0 : ℤ) = bzMore from h) (by decide)

/-- A step that wants more has changed neither its state nor its sink. -/
theorem bzStep_waits {S S' : StepState} {p : List UInt8} {eof : Bool} {w w' : Sink}
    (h : bzStep S p eof w = (bzMore, S', w')) : S' = S ∧ w' = w := by
  by_cases hmode : S.mode = 0
  case pos =>
      rw [bzStep, if_pos hmode] at h
      obtain ⟨hcode, rfl, rfl⟩ : (stepHead S p eof).1 = bzMore ∧ (stepHead S p eof).2 = S' ∧ w = w' := by
        simpa using h
      exact ⟨stepHead_waits hcode, rfl⟩
  obtain ⟨r, hr, -, hmagic⟩ := readMagic_run p S.bit
  obtain ⟨⟨m1, m2⟩, q, hrun, hq, -⟩ := magic_over hr
  rw [bzStep, if_neg hmode, hmagic, hrun] at h
  dsimp only at h
  by_cases hoff : p.length * 8 < brUsed q
  case pos =>
      rw [if_pos hoff] at h
      obtain ⟨-, rfl, rfl⟩ : ranOff eof = bzMore ∧ S = S' ∧ w = w' := by simpa using h
      exact ⟨rfl, rfl⟩
  rw [if_neg hoff] at h
  by_cases hblock : m1 = 0x314159 ∧ m2 = 0x265359
  case pos =>
      rw [if_pos hblock] at h
      have hcode := bzDblock_code S.level hq w
      have hl := (readBlock_alike (List.prefix_refl p) S.level).left q hq
      have hends := readBlock_ends S.level q
      generalize hx : (readBlock S.level).run.run q = x at hl hends
      obtain ⟨x, t⟩ := x
      cases x with
      | error e =>
          rw [bzDblock_error hx] at h hcode
          dsimp only at h hcode
          have he : e ≠ 0 := by rcases hl.2.2.2 e rfl with rfl | rfl <;> decide
          rw [if_pos he] at h
          split at h
          · obtain ⟨-, rfl, rfl⟩ : ranOff eof = bzMore ∧ S = S' ∧ w = w' := by simpa using h
            exact ⟨rfl, rfl⟩
          · obtain ⟨-, rfl, rfl⟩ : _ ∧ S = S' ∧ w = w' := by simpa using h
            exact ⟨rfl, rfl⟩
      | ok x =>
          have hin := hends x rfl
          dsimp only at hin
          rw [hl.1.source] at hin
          rw [bzDblock_ok hx] at h hcode
          dsimp only at h hcode
          have hon : ∀ c : Prop, ¬ (c ∧ p.length * 8 < brUsed t) := fun _ hc => by omega
          rw [if_neg (hon _)] at h
          split at h
          · have hrc := congrArg Prod.fst h
            dsimp only at hrc
            split at hrc
            · split at hrc <;> exact absurd hrc (by decide)
            · exact absurd hrc hcode
          · exact absurd (show (0 : ℤ) = bzMore from congrArg Prod.fst h) (by decide)
  rw [if_neg hblock] at h
  by_cases hend : m1 = 0x177245 ∧ m2 = 0x385090
  case pos =>
      rw [if_pos hend] at h
      obtain ⟨hcode, rfl, rfl⟩ :
          (stepSum S p eof q).1 = bzMore ∧ (stepSum S p eof q).2 = S' ∧ w = w' := by simpa using h
      exact ⟨stepSum_waits hq hcode, rfl⟩
  rw [if_neg hend] at h
  exact absurd (show (2 : ℤ) = bzMore from congrArg Prod.fst h) (by decide)

end LoveRuntime.Bzip2
