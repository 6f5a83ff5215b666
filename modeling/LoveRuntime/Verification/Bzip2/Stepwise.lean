import LoveRuntime.Verification.Bzip2.InStep
import LoveRuntime.Verification.Bzip2.Written
import LoveRuntime.Verification.Bzip2.Runs
import LoveRuntime.Model.Compress.Bzip2

/-! A block of a prefix against the same block of the whole. -/

namespace LoveRuntime.Bzip2

open Loop Function CountingSort CanonicalCode PrefixReads

/-! ### The tables -/

/-- The codes handed out so far, and what `ok` has checked. -/
theorem bzTbuild_kraft {lens : List ℕ} (hok : (bzTbuild lens).ok = true) :
    kraft (lenOf lens) lens.length 20 ≤ 2 ^ 20 := by
  have hloop : ∀ m,
      let t := upto m (fun l t =>
        let l := l + 1
        let t := { t with base := update t.base l (t.code - t.perm.length) }
        let t := upto lens.length (fun i t => if lens.getD i 0 = l then tabSym l i t else t) t
        { t with
          limit := update t.limit l t.code
          code := t.code <<< 1
          ok := t.ok && decide (t.code ≤ 1 <<< l) })
        (⟨fun _ => 0, fun _ => 0, fun _ => 0, [], 0, true⟩ : Tab)
      t.code = first (lenOf lens) lens.length (m + 1) ∧
        (t.ok = true → last (lenOf lens) lens.length m ≤ 2 ^ m) := by
    intro m
    induction m with
    | zero => exact ⟨rfl, fun _ => Nat.zero_le _⟩
    | succ m ih =>
        rw [upto_succ]
        obtain ⟨hcode, -⟩ := ih
        generalize upto m _ (⟨fun _ => 0, fun _ => 0, fun _ => 0, [], 0, true⟩ : Tab) = t at hcode ⊢
        dsimp only at hcode ⊢
        have hinner : ∀ i (t' : Tab), (upto i (fun i t =>
            if lens.getD i 0 = m + 1 then tabSym (m + 1) i t else t) t').code =
              t'.code + equal (lenOf lens) i (m + 1) := by
          intro i t'
          induction i with
          | zero => simp [equal_zero]
          | succ i ih =>
              rw [upto_succ, equal_succ]
              by_cases h : lenOf lens i = m + 1
              · have hget : lens.getD i 0 = m + 1 := h
                rw [if_pos h, if_pos hget, tabSym]
                dsimp only
                rw [ih, Nat.add_assoc]
              · have hget : lens.getD i 0 ≠ m + 1 := h
                rw [if_neg h, if_neg hget, ih]
                rfl
        have hlast : t.code + equal (lenOf lens) lens.length (m + 1) =
            last (lenOf lens) lens.length (m + 1) := by
          rw [last, hcode, held_pos (Nat.succ_ne_zero m)]
        rw [hinner]
        dsimp only
        rw [hlast]
        refine ⟨?_, fun h => ?_⟩
        · rw [Nat.shiftLeft_eq, pow_one, Nat.mul_comm, first_succ (m + 1)]
        · rw [Bool.and_eq_true, decide_eq_true_eq, Nat.one_shiftLeft] at h
          exact h.2
  rw [← last_eq_kraft]
  exact (hloop 20).2 hok

/-- A table that reads: of a code, or none at all. -/
def Readable (tab : Tab × ℕ) : Prop :=
  Coded tab ∨ tab = (⟨fun _ => 0, fun _ => 0, fun _ => 0, [], 0, false⟩, 0)

variable {p s : List UInt8}

theorem bzSym_blank (r : Reader) :
    (bzSym ⟨fun _ => 0, fun _ => 0, fun _ => 0, [], 0, false⟩ 0).run.run r =
      (.error 2, if r.k < 20 then brFill r else r) := rfl

theorem bzSym_readable (h : p <+: s) {tab : Tab × ℕ} (htab : Readable tab) :
    Alike p s (fun _ => True) (bzSym tab.1 tab.2) (bzSym tab.1 tab.2) := by
  rcases htab with hcoded | rfl
  · exact bzSym_alike h hcoded
  · refine ⟨bzSym_onward _ _, bzSym_onward _ _, fun r r' hr hr' heq => .inr ?_⟩
    obtain ⟨q, hfill, -, hused, -⟩ := hr.filled (show 20 ≤ 57 by omega)
    obtain ⟨q', hfill', -, hused', -⟩ := hr'.filled (show 20 ≤ 57 by omega)
    rw [bzSym_blank, bzSym_blank, hfill, hfill']
    exact ⟨rfl, hused.trans (heq.trans hused'.symm)⟩

/-! ### The head of a block -/

theorem readMap_alike (h : p <+: s) (rows : List ℕ) (u16 : ℕ) :
    Alike p s (fun _ => True) (readMap rows u16) (readMap rows u16) := by
  induction rows with
  | nil => exact .pure trivial
  | cons i rows ih =>
      rw [readMap]
      exact .ite (fun _ => .bind (brGet_alike h (by omega)) fun _ _ => .bind ih fun _ _ => .pure trivial)
        fun _ => ih

theorem readUnary_alike (h : p <+: s) (ng fuel j : ℕ) :
    Alike p s (fun _ => True) (readUnary ng fuel j) (readUnary ng fuel j) := by
  induction fuel generalizing j with
  | zero => exact .throw (.inl rfl)
  | succ fuel ih =>
      rw [readUnary]
      refine .bind (brGet_alike h (by omega)) fun b _ => .ite (fun _ => .pure trivial) fun _ => ?_
      exact .ite (fun _ => .throw (.inl rfl)) fun _ => ih _

theorem readSels_alike (h : p <+: s) (ng ns : ℕ) (pos : List ℕ) :
    Alike p s (fun _ => True) (readSels ng ns pos) (readSels ng ns pos) := by
  induction ns generalizing pos with
  | zero => exact .pure trivial
  | succ ns ih =>
      rw [readSels]
      exact .bind (readUnary_alike h ng ng 0) fun j _ => .bind (ih _) fun _ _ => .pure trivial

/-! ### The lengths -/

theorem readLen_onward {src : List UInt8} (fuel c : ℕ) :
    Onward (Over src) brUsed Corrupt (fun l => l ≤ 20) (readLen fuel c) := by
  induction fuel generalizing c with
  | zero => exact .throw (.inl rfl)
  | succ fuel ih =>
      rw [readLen]
      refine .ite (fun _ => .throw (.inl rfl)) fun hc => .bind (brGet_onward (by omega)) fun b _ => ?_
      refine .ite (fun _ => .pure (by omega)) fun _ => .bind (brGet_onward (by omega)) fun d _ => ?_
      exact .ite (fun _ => ih _) fun _ => ih _

/-- A length's steps run out only past the end. -/
theorem readLen_at (h : p <+: s) {fuel fuel' : ℕ} (hle : fuel ≤ fuel') (c : ℕ) {r r' : Reader}
    (hr : Over p r) (hr' : Over s r') (heq : brUsed r = brUsed r') (hfuel : p.length * 8 < brUsed r + fuel) :
    AgreeAt brUsed (p.length * 8) r r' (readLen fuel c) (readLen fuel' c) := by
  induction fuel generalizing fuel' c r r' with
  | zero => exact .inl hfuel
  | succ fuel ih =>
      obtain ⟨fuel', rfl⟩ := Nat.exists_eq_succ_of_ne_zero (show fuel' ≠ 0 by omega)
      rw [readLen, readLen]
      by_cases hc : c < 1 ∨ 20 < c
      case pos =>
          rw [if_pos hc, if_pos hc]
          exact .inr ⟨rfl, heq⟩
      rw [if_neg hc, if_neg hc]
      refine .bind (Q := fun l => l ≤ 20) (brGet_alike h (by omega)) hr hr' heq (fun b _ => ?_) fun b q q' _ hb _ hq hq' hqq => ?_
      · refine .ite (fun _ => .pure (show c ≤ 20 by omega)) fun _ => .bind (brGet_onward (by omega)) fun d _ => ?_
        exact .ite (fun _ => readLen_onward fuel _) fun _ => readLen_onward fuel _
      · obtain ⟨v, q1, hrun, -, hused, -⟩ := brGet_over hr (show 1 ≤ 57 by omega)
        obtain ⟨-, rfl⟩ := Prod.mk.inj (hrun.symm.trans hb)
        by_cases hb0 : b = 0
        · rw [if_pos hb0, if_pos hb0]
          exact .inr ⟨rfl, hqq⟩
        rw [if_neg hb0, if_neg hb0]
        refine .bind (Q := fun l => l ≤ 20) (brGet_alike h (by omega)) hq hq' hqq (fun d _ => ?_) fun d t t' _ hd _ ht ht' htt => ?_
        · exact .ite (fun _ => readLen_onward fuel _) fun _ => readLen_onward fuel _
        · obtain ⟨v', t1, hrun', -, hused', -⟩ := brGet_over hq (show 1 ≤ 57 by omega)
          obtain ⟨-, rfl⟩ := Prod.mk.inj (hrun'.symm.trans hd)
          split
          · exact ih (by omega) _ ht ht' htt (by omega)
          · exact ih (by omega) _ ht ht' htt (by omega)

section

variable {fuel fuel' : ℕ}

theorem readLens_onward {src : List UInt8} (fuel v c : ℕ) :
    Onward (Over src) brUsed Corrupt (fun ls => ∀ l ∈ ls, l ≤ 20) (readLens fuel v c) := by
  induction v generalizing c with
  | zero => exact .pure fun l hl => absurd hl (List.not_mem_nil)
  | succ v ih =>
      rw [readLens]
      refine .bind (readLen_onward fuel c) fun l hl => .bind (ih l) fun rest hrest => .pure ?_
      exact List.forall_mem_cons.mpr ⟨hl, hrest⟩

theorem readLens_alike (h : p <+: s) (hle : fuel ≤ fuel') (hfuel : p.length * 8 < fuel) (v c : ℕ) :
    Alike p s (fun ls => ∀ l ∈ ls, l ≤ 20) (readLens fuel v c) (readLens fuel' v c) := by
  induction v generalizing c with
  | zero => exact .pure fun l hl => absurd hl (List.not_mem_nil)
  | succ v ih =>
      have hlen : Alike p s (fun l => l ≤ 20) (readLen fuel c) (readLen fuel' c) :=
        ⟨readLen_onward _ _, readLen_onward _ _, fun r r' hr hr' heq =>
          readLen_at h hle c hr hr' heq (by omega)⟩
      rw [readLens, readLens]
      refine .bind hlen fun l hl => .bind (ih l) fun rest hrest => .pure ?_
      exact List.forall_mem_cons.mpr ⟨hl, hrest⟩

theorem checkEnd_onward {src : List UInt8} :
    Onward (Over src) brUsed Corrupt (fun _ => True) (checkEnd 3) :=
  (checkEnd_alike (List.prefix_refl src)).left

theorem readTabs_onward {src : List UInt8} (fuel alpha t : ℕ) :
    Onward (Over src) brUsed Corrupt (fun ts => ∀ tab ∈ ts, Coded tab) (readTabs fuel alpha t) := by
  induction t with
  | zero => exact .pure fun l hl => absurd hl (List.not_mem_nil)
  | succ t ih =>
      rw [readTabs]
      refine .bind (brGet_onward (by omega)) fun c _ => .bind (readLens_onward fuel alpha c)
        fun len hlen => ?_
      refine .ite (fun _ => .throw (.inl rfl)) fun hok => .bind checkEnd_onward fun _ _ =>
        .bind ih fun rest hrest => .pure (List.forall_mem_cons.mpr ⟨⟨len, rfl, hlen, ?_⟩, hrest⟩)
      exact bzTbuild_kraft (by simpa using hok)

theorem readTabs_alike (h : p <+: s) (hle : fuel ≤ fuel') (hfuel : p.length * 8 < fuel) (alpha t : ℕ) :
    Alike p s (fun ts => ∀ tab ∈ ts, Coded tab) (readTabs fuel alpha t) (readTabs fuel' alpha t) := by
  induction t with
  | zero => exact .pure fun l hl => absurd hl (List.not_mem_nil)
  | succ t ih =>
      rw [readTabs, readTabs]
      refine .bind (brGet_alike h (by omega)) fun c _ => .bind (readLens_alike h hle hfuel alpha c)
        fun len hlen => ?_
      refine .ite (fun _ => .throw (.inl rfl)) fun hok => .bind (checkEnd_alike h) fun _ _ =>
        .bind ih fun rest hrest => .pure (List.forall_mem_cons.mpr ⟨⟨len, rfl, hlen, ?_⟩, hrest⟩)
      exact bzTbuild_kraft (by simpa using hok)

end

/-! ### The symbols -/

theorem readSyms_alike (h : p <+: s) {tabs : List (Tab × ℕ)} (htabs : ∀ tab ∈ tabs, Coded tab)
    (sel seq : List ℕ) (max fuel g left : ℕ) {d : Column} (hd : d.tt.length ≤ max) :
    Alike p s (fun tt => tt.length ≤ max) (readSyms tabs sel seq max fuel g left d)
      (readSyms tabs sel seq max fuel g left d) := by
  have htab : ∀ i, Readable
      (tabs.getD i (⟨fun _ => 0, fun _ => 0, fun _ => 0, [], 0, false⟩, 0)) := by
    intro i
    by_cases hi : i < tabs.length
    · rw [List.getD_eq_getElem _ _ hi]
      exact .inl (htabs _ (List.getElem_mem hi))
    · rw [List.getD_eq_default _ _ (Nat.le_of_not_lt hi)]
      exact .inr rfl
  induction fuel generalizing g left d with
  | zero => exact .throw (.inl rfl)
  | succ fuel ih =>
      rw [readSyms]
      refine .ite (fun _ => .throw (.inl rfl)) fun _ => ?_
      have hcheck : ∀ m : Rd (List ℕ), Alike p s (fun tt => tt.length ≤ max) m m →
          Alike p s (fun tt => tt.length ≤ max) (if left = 0 then checkEnd 3 >>= fun _ => m else m)
            (if left = 0 then checkEnd 3 >>= fun _ => m else m) := fun m hm =>
        .ite (fun _ => .bind (checkEnd_alike h) fun _ _ => hm) fun _ => hm
      refine hcheck _ (.bind (bzSym_readable h (htab _)) fun v _ => ?_)
      refine .ite (fun _ => .ite (fun _ => .throw (.inl rfl)) fun _ => ih _ _ hd) fun _ => ?_
      refine .ite (fun _ => .throw (.inl rfl)) fun hroom => ?_
      have htt : (d.tt ++ List.replicate d.run (seq.getD (d.yy.getD 0 0) 0)).length ≤ max := by
        rw [List.length_append, List.length_replicate]
        omega
      refine .ite (fun _ => .pure htt) fun _ => .ite (fun _ => .throw (.inl rfl)) fun hmax => ih _ _ ?_
      rw [List.length_append, List.length_singleton]
      omega

/-! ### The block -/

theorem readBlock_alike (h : p <+: s) (level : ℕ) :
    Alike p s (fun x => x.2.2.length ≤ level * 100000) (readBlock level) (readBlock level) := by
  unfold readBlock
  refine .bind (brGet_alike h (by omega)) fun want _ => .bind (brGet_alike h (by omega)) fun random _ => ?_
  refine .ite (fun _ => .throw (.inl rfl)) fun _ => .bind (brGet_alike h (by omega)) fun orig _ => ?_
  refine .bind (brGet_alike h (by omega)) fun u16 _ => .bind (readMap_alike h _ u16) fun seq _ => ?_
  refine .ite (fun _ => .throw (.inl rfl)) fun _ => .bind (brGet_alike h (by omega)) fun ng _ => ?_
  refine .bind (brGet_alike h (by omega)) fun ns _ => .ite (fun _ => .throw (.inl rfl)) fun _ => ?_
  refine .bind (readSels_alike h ng ns _) fun sel _ => ?_
  have hrest : ∀ {q q' : List UInt8}, q <+: q' → ∀ {tabs : List (Tab × ℕ)}, (∀ tab ∈ tabs, Coded tab) →
      Alike q q' (fun x : ℕ × ℕ × List ℕ => x.2.2.length ≤ level * 100000)
        (do
          let sel := sel.take maxSel
          let tt ← readSyms tabs sel seq (level * 100000) (gsize * sel.length + 1) 0 0
            ⟨[], List.range 256, 0, 1⟩
          checkEnd 3
          if tt.length ≤ orig then throw 2 else pure (want, orig, tt))
        (do
          let sel := sel.take maxSel
          let tt ← readSyms tabs sel seq (level * 100000) (gsize * sel.length + 1) 0 0
            ⟨[], List.range 256, 0, 1⟩
          checkEnd 3
          if tt.length ≤ orig then throw 2 else pure (want, orig, tt)) := fun hq _ htabs =>
    .bind (readSyms_alike hq htabs _ _ _ _ _ _ (Nat.zero_le _)) fun tt htt =>
      .bind (checkEnd_alike hq) fun _ _ => .ite (fun _ => .throw (.inl rfl)) fun _ => .pure htt
  have honward : ∀ src fuel, Onward (Over src) brUsed Corrupt
      (fun x : ℕ × ℕ × List ℕ => x.2.2.length ≤ level * 100000) _ := fun src fuel =>
    (readTabs_onward fuel (seq.length + 2) ng).bind fun tabs htabs =>
      (hrest (List.prefix_refl src) htabs).left
  refine .get (fun r _ => honward p _) (fun r _ => honward s _) fun r r' hr hr' => ?_
  refine .bind (readTabs_alike h ?_ ?_ _ _) fun tabs htabs => hrest h htabs
  · rw [hr.source, hr'.source]
    have := h.length_le
    omega
  · rw [hr.source]
    omega

/-- What `m` answers it has read whole. -/
def Ends {α : Type} (m : Rd α) : Prop :=
  ∀ r a, (m.run.run r).1 = .ok a → brUsed (m.run.run r).2 ≤ (m.run.run r).2.p.length * 8

theorem Ends.fails {α : Type} (e : ℤ) : Ends (throw e : Rd α) := fun _ _ h => by injection h

theorem Ends.bind {α β : Type} (m : Rd α) {f : α → Rd β} (hf : ∀ a, Ends (f a)) : Ends (m >>= f) := by
  intro r b
  rw [run_bind]
  generalize m.run.run r = x
  obtain ⟨x, q⟩ := x
  cases x with
  | error e => exact fun h => by injection h
  | ok a => exact hf a q b

theorem Ends.ite {α : Type} {c : Prop} [Decidable c] {m n : Rd α} (hm : Ends m) (hn : Ends n) :
    Ends (if c then m else n) := by
  split
  · exact hm
  · exact hn

theorem Ends.check {α : Type} {c : Prop} [Decidable c] (a : α) :
    Ends (do checkEnd 3; if c then throw 2 else pure a) := by
  intro r b
  rw [run_bind]
  have hcheck : (checkEnd 3).run.run r =
      (if r.p.length * 8 < brUsed r then .error 3 else .ok (), r) := rfl
  rw [hcheck]
  by_cases hoff : r.p.length * 8 < brUsed r
  · rw [if_pos hoff]
    exact fun h => by injection h
  · rw [if_neg hoff]
    dsimp only
    split
    · exact fun h => by injection h
    · exact fun _ => Nat.le_of_not_lt hoff

theorem readBlock_ends (level : ℕ) : Ends (readBlock level) := by
  unfold readBlock
  refine .bind _ fun _ => .bind _ fun _ => .ite (.fails 2) (.bind _ fun _ => .bind _ fun _ => ?_)
  refine .bind _ fun _ => .ite (.fails 2) (.bind _ fun _ => .bind _ fun _ => .ite (.fails 2) ?_)
  exact .bind _ fun _ => .bind _ fun _ => .bind _ fun _ => .bind _ fun _ => .check _

/-! ### The walk out -/

theorem walkByte_bytes (d : Walk) (c : UInt8) :
    ∃ bs : List UInt8, bs.length ≤ 255 ∧ ∃ d' : Walk, ∀ w,
      walkByte { d with w := w } c = { d' with w := bs.foldl bwByte w } := by
  have hc : c.toNat ≤ 255 := Nat.le_of_lt_succ c.toNat_lt
  obtain ⟨p, last, same, crc, w0⟩ := d
  cases last with
  | none => exact ⟨[c], by simp, ⟨p, some c, 1, crcByte crc c, w0⟩, fun _ => rfl⟩
  | some l =>
      by_cases hs : same = 4
      case pos =>
          refine ⟨List.replicate c.toNat l, by rwa [List.length_replicate],
            ⟨p, none, 0, upto c.toNat (fun _ crc => crcByte crc l) crc, w0⟩, fun w => ?_⟩
          rw [walkByte, ← upto_const]
          exact if_pos hs
      case neg =>
          refine ⟨[c], by simp, ⟨p, some c, if c = l then same + 1 else 1, crcByte crc c, w0⟩,
            fun w => ?_⟩
          rw [walkByte]
          exact if_neg hs

/-- What goes out, whatever sink takes it. -/
theorem walkOut_bytes (tt : ℕ → ℕ) (nb orig : ℕ) :
    ∃ bs : List UInt8, bs.length ≤ 255 * nb ∧ ∃ crc, ∀ w,
      (walkOut tt nb orig w).w = bs.foldl bwByte w ∧ (walkOut tt nb orig w).crc = crc := by
  have hloop : ∃ bs : List UInt8, bs.length ≤ 255 * nb ∧ ∃ d : Walk, ∀ w,
      walkOut tt nb orig w = { d with w := bs.foldl bwByte w } := by
    unfold walkOut
    induction nb with
    | zero =>
        exact ⟨[], Nat.le_refl 0, { p := tt orig >>> 8, last := none, same := 0, crc := 0xffffffff, w := .empty },
          fun _ => rfl⟩
    | succ nb ih =>
        obtain ⟨bs, hlen, d, hd⟩ := ih
        obtain ⟨cs, hlen', d', hd'⟩ :=
          walkByte_bytes { d with p := tt d.p >>> 8 } (UInt8.ofNat (tt d.p))
        refine ⟨bs ++ cs, by rw [List.length_append]; omega, d', fun w => ?_⟩
        rw [upto_succ, hd, List.foldl_append]
        exact hd' _
  obtain ⟨bs, hlen, d, hd⟩ := hloop
  exact ⟨bs, hlen, d.crc, fun w => by rw [hd]; exact ⟨rfl, rfl⟩⟩

/-- A block read, taken out to `w`: the code, the sum and the sink. -/
def blockOut (x : ℕ × ℕ × List ℕ) (w : Sink) : ℤ × ℕ × Sink :=
  let d := walkOut (links x.2.2) x.2.2.length x.2.1 w
  if d.w.bad then (-1, 0, d.w) else if notU32 d.crc ≠ x.1 then (4, 0, d.w) else (0, x.1, d.w)

theorem bzDblock_error {level : ℕ} {r q : Reader} {e : ℤ} (h : (readBlock level).run.run r = (.error e, q))
    (w : Sink) : bzDblock level r w = (e, 0, q, w) := by
  unfold bzDblock
  rw [h]

theorem bzDblock_ok {level : ℕ} {r q : Reader} {x : ℕ × ℕ × List ℕ}
    (h : (readBlock level).run.run r = (.ok x, q)) (w : Sink) :
    bzDblock level r w = ((blockOut x w).1, (blockOut x w).2.1, q, (blockOut x w).2.2) := by
  unfold bzDblock blockOut
  rw [h]
  obtain ⟨want, orig, tt⟩ := x
  dsimp only
  split
  · rfl
  · split <;> rfl

theorem bytes_good {w : Sink} (bs : List UInt8) (h : (bs.foldl bwByte w).bad = false) :
    w.bad = false ∧ (bs.foldl bwByte w).p = w.p ++ bs := by
  induction bs generalizing w with
  | nil => exact ⟨h, (List.append_nil _).symm⟩
  | cons c bs ih =>
      obtain ⟨hgood, hp⟩ := ih h
      obtain ⟨hgood', hp'⟩ := bwByte_good hgood
      refine ⟨hgood', ?_⟩
      rw [List.foldl_cons, hp, hp', List.append_assoc]
      rfl

/-- A block that fits what is there fits an empty sink, to the same code and the same sum. -/
theorem blockOut_fresh (x : ℕ × ℕ × List ℕ) {w : Sink} (hw : Roomy w)
    (hgood : (blockOut x w).2.2.bad = false) :
    (blockOut x w).1 ∈ ({0, 4} : Set ℤ) ∧ Roomy (blockOut x w).2.2 ∧
      (blockOut x Sink.empty).1 = (blockOut x w).1 ∧ (blockOut x Sink.empty).2.1 = (blockOut x w).2.1 ∧
      (blockOut x w).2.2.p = w.p ++ (blockOut x Sink.empty).2.2.p := by
  obtain ⟨bs, -, crc, hout⟩ := walkOut_bytes (links x.2.2) x.2.2.length x.2.1
  obtain ⟨hw', hcrc⟩ := hout w
  obtain ⟨hempty, hcrc'⟩ := hout Sink.empty
  unfold blockOut at hgood ⊢
  dsimp only at hgood ⊢
  rw [hw', hcrc] at hgood ⊢
  rw [hempty, hcrc']
  have hbs : (bs.foldl bwByte w).bad = false := by
    by_contra hbad
    rw [if_pos (by simpa using hbad)] at hgood
    exact hbad hgood
  have hp := (bytes_good bs hbs).2
  have hroom : Roomy (bs.foldl bwByte w) := ⟨hw.toCapped.bytes bs, hbs⟩
  have hlen := hroom.toCapped.length_le
  rw [hp, List.length_append] at hlen
  obtain ⟨hfresh, hp'⟩ := Roomy.empty.bytes bs (by change 0 + _ ≤ _; omega)
  rw [hbs, hfresh.good, if_neg Bool.false_ne_true, if_neg Bool.false_ne_true]
  by_cases hsum : notU32 crc ≠ x.1
  · rw [if_pos hsum, if_pos hsum]
    exact ⟨.inr rfl, hroom, rfl, rfl, by rw [hp, hp']; rfl⟩
  · rw [if_neg hsum, if_neg hsum]
    exact ⟨.inl rfl, hroom, rfl, rfl, by rw [hp, hp']; rfl⟩

end LoveRuntime.Bzip2

/-! Steps: one over a prefix waits, or does what the same step over the whole does; and the
steps over the whole do what `bz_dec` does. -/

namespace LoveRuntime.Bzip2

open Loop PrefixReads

/-! ### The magic -/

/-- The magic as `bz_dec` reads it. -/
def magic : Rd (ℕ × ℕ) := do
  let m1 ← brGet 24
  let m2 ← brGet 24
  pure (m1, m2)

section

variable {src : List UInt8} {r : Reader}

theorem magic_over (h : Over src r) :
    ∃ m q, magic.run.run r = (.ok m, q) ∧ Over src q ∧ brUsed q = brUsed r + 48 := by
  obtain ⟨m1, q, hrun, hq, hused, -⟩ := brGet_over h (show 24 ≤ 57 by omega)
  obtain ⟨m2, q', hrun', hq', hused', -⟩ := brGet_over hq (show 24 ≤ 57 by omega)
  refine ⟨(m1, m2), q', ?_, hq', by omega⟩
  rw [magic, run_bind, hrun]
  dsimp only
  rw [run_bind, hrun']
  rfl

/-- The step's own reader, at the bit where the state stands. -/
theorem readMagic_run (src : List UInt8) (bit : ℕ) :
    ∃ r, Over src r ∧ brUsed r = bit ∧
      (readMagic (bit % 8)).run.run ⟨src, bit / 8, 0, 0⟩ = magic.run.run r := by
  have hstart := Over.start src (bit / 8)
  have hused : brUsed ⟨src, bit / 8, 0, 0⟩ = bit / 8 * 8 := rfl
  have hskip : ∃ r, Over src r ∧ brUsed r = bit ∧
      (skipBits (bit % 8)).run.run ⟨src, bit / 8, 0, 0⟩ = (.ok (), r) := by
    unfold skipBits
    by_cases h0 : bit % 8 = 0
    case pos =>
        rw [if_pos h0]
        exact ⟨_, hstart, by rw [hused]; omega, rfl⟩
    case neg =>
        obtain ⟨v, q, hrun, hq, hused', -⟩ := brGet_over hstart (show bit % 8 ≤ 57 by omega)
        rw [if_neg h0]
        refine ⟨q, hq, by rw [hused', hused]; omega, ?_⟩
        rw [run_bind, hrun]
        rfl
  obtain ⟨r, hr, hbit, hrun⟩ := hskip
  refine ⟨r, hr, hbit, ?_⟩
  rw [readMagic, run_bind, hrun]
  rfl

/-- The byte the sum ends on. -/
theorem brUsed_align (h : Over src r) : brUsed { r with k := r.k - r.k % 8 } = (brUsed r + 7) / 8 * 8 := by
  have := h.loaded
  unfold brUsed
  dsimp only
  omega

end

variable {p s : List UInt8}

theorem magic_alike (h : p <+: s) : Alike p s (fun _ => True) magic magic :=
  .bind (brGet_alike h (by omega)) fun _ _ => .bind (brGet_alike h (by omega)) fun _ _ => .pure trivial

/-! ### A step over a prefix -/

/-- The head of a prefix is the head of the whole, or not there yet. -/
theorem stepHead_prefix (h : p <+: s) {S : StepState} (hbit : S.bit ≤ p.length * 8) :
    stepHead S p false = (bzMore, S) ∨ stepHead S p false = stepHead S s true ∧
      ((stepHead S p false).1 = 0 → (stepHead S p false).2.bit ≤ p.length * 8) := by
  by_cases hshort : p.length < S.bit / 8 + 4
  case pos =>
      left
      rw [stepHead]
      exact if_pos ⟨⟨by omega, hshort⟩, rfl⟩
  case neg =>
      right
      obtain ⟨t, rfl⟩ := h
      have hlen : (p ++ t).length = p.length + t.length := List.length_append
      have hget : ∀ j < 4, (p ++ t).getD (S.bit / 8 + j) 0 = p.getD (S.bit / 8 + j) 0 := fun j hj =>
        List.getD_append _ _ _ _ (by omega)
      have hhead : headAt (p ++ t) (S.bit / 8) = headAt p (S.bit / 8) := by
        have h0 := hget 0 (by omega)
        rw [Nat.add_zero] at h0
        rw [headAt, headAt, h0, hget 1 (by omega), hget 2 (by omega), hget 3 (by omega),
          decide_eq_true (show S.bit / 8 + 4 ≤ (p ++ t).length by omega),
          decide_eq_true (show S.bit / 8 + 4 ≤ p.length by omega)]
      have hin : ∀ q : Prop, ¬ ((S.bit / 8 ≤ p.length ∧ p.length < S.bit / 8 + 4) ∧ q) := fun _ hc =>
        hshort hc.1.2
      have hin' : ∀ q : Prop,
          ¬ ((S.bit / 8 ≤ (p ++ t).length ∧ (p ++ t).length < S.bit / 8 + 4) ∧ q) := fun _ hc => by omega
      rw [stepHead, stepHead, if_neg (hin _), if_neg (hin' _), hhead, hget 3 (by omega)]
      by_cases hh : headAt p (S.bit / 8) = true
      · rw [if_pos hh, if_pos hh]
        exact ⟨rfl, fun _ => by dsimp only; omega⟩
      · rw [if_neg hh, if_neg hh, if_neg (hin _), if_neg (hin' _)]
        refine ⟨rfl, fun h => ?_⟩
        dsimp only at h
        split at h <;> exact absurd h (by decide)

theorem stepSum_prefix (h : p <+: s) (S : StepState) {r r' : Reader} (hr : Over p r) (hr' : Over s r')
    (heq : brUsed r = brUsed r') :
    stepSum S p false r = (bzMore, S) ∨ stepSum S p false r = stepSum S s true r' ∧
      ((stepSum S p false r).1 = 0 → (stepSum S p false r).2.bit ≤ p.length * 8) := by
  obtain ⟨v, q, hrun, hq, hused, -⟩ := brGet_over hr (show 32 ≤ 57 by omega)
  obtain ⟨v', q', hrun', hq', hused', -⟩ := brGet_over hr' (show 32 ≤ 57 by omega)
  have hboth := (brGet_alike h (show 32 ≤ 57 by omega)).both r r' hr hr' heq
  unfold AgreeAt at hboth
  rw [stepSum, stepSum, hrun, hrun']
  rw [hrun, hrun'] at hboth
  dsimp only at hboth ⊢
  by_cases hoff : p.length * 8 < brUsed q
  case pos => exact .inl (if_pos hoff)
  case neg =>
      right
      obtain ⟨hv, hqq⟩ := hboth.resolve_left hoff
      obtain rfl : v = v' := by injection hv
      have hle := h.length_le
      have hon : ¬ s.length * 8 < brUsed q' := by omega
      rw [if_neg hoff, if_neg hon, brUsed_align hq, brUsed_align hq', ← hqq]
      refine ⟨rfl, fun h0 => ?_⟩
      by_cases hsum : v ≠ S.all
      · rw [if_pos hsum] at h0
        exact absurd (show (4 : ℤ) = 0 from h0) (by decide)
      · rw [if_neg hsum]
        dsimp only
        omega

/-- A step over a prefix leaves its state and its sink to a longer try, or is the step over
the whole. -/
theorem bzStep_front (h : p <+: s) {S : StepState} (hbit : S.bit ≤ p.length * 8) (w : Sink) :
    bzStep S p false w = (bzMore, S, w) ∨ bzStep S p false w = bzStep S s true w ∧
      ((bzStep S p false w).1 = 0 → (bzStep S p false w).2.1.bit ≤ p.length * 8) := by
  have hle := h.length_le
  by_cases hmode : S.mode = 0
  case pos =>
      rw [bzStep, bzStep, if_pos hmode, if_pos hmode]
      rcases stepHead_prefix h hbit with hmore | ⟨heq, hbound⟩
      · exact .inl (by rw [hmore])
      · exact .inr ⟨by rw [heq], hbound⟩
  obtain ⟨r, hr, hat, hmagic⟩ := readMagic_run p S.bit
  obtain ⟨r', hr', hat', hmagic'⟩ := readMagic_run s S.bit
  obtain ⟨m, q, hrun, hq, hused⟩ := magic_over hr
  obtain ⟨m', q', hrun', hq', hused'⟩ := magic_over hr'
  have hboth := (magic_alike h).both r r' hr hr' (hat.trans hat'.symm)
  unfold AgreeAt at hboth
  rw [bzStep, bzStep, if_neg hmode, if_neg hmode, hmagic, hmagic', hrun, hrun']
  rw [hrun, hrun'] at hboth
  dsimp only at hboth ⊢
  by_cases hoff : p.length * 8 < brUsed q
  case pos => exact .inl (by rw [if_pos hoff]; rfl)
  obtain ⟨hm, hqq⟩ := hboth.resolve_left hoff
  obtain rfl : m = m' := by injection hm
  obtain ⟨m1, m2⟩ := m
  dsimp only
  have hon : ¬ s.length * 8 < brUsed q' := by omega
  rw [if_neg hoff, if_neg hon]
  by_cases hblock : m1 = 0x314159 ∧ m2 = 0x265359
  case pos =>
      rw [if_pos hblock, if_pos hblock]
      have hb := (readBlock_alike h S.level).both q q' hq hq' hqq
      have hl := (readBlock_alike h S.level).left q hq
      have hends := readBlock_ends S.level q
      unfold AgreeAt at hb
      generalize hx : (readBlock S.level).run.run q = x at hb hl hends
      generalize hx' : (readBlock S.level).run.run q' = x' at hb
      obtain ⟨x, t⟩ := x
      obtain ⟨x', t'⟩ := x'
      dsimp only at hb hl hends
      cases x with
      | error e =>
          have he : e ≠ 0 ∧ ¬ e < 0 := by
            rcases hl.2.2.2 e rfl with rfl | rfl <;> decide
          rw [bzDblock_error hx]
          dsimp only
          by_cases hoff' : p.length * 8 < brUsed t
          · exact .inl (by rw [if_pos ⟨he.1, hoff'⟩]; rfl)
          · obtain ⟨rfl, htt⟩ := hb.resolve_left hoff'
            rw [bzDblock_error hx']
            dsimp only
            have hin : ¬ (e ≠ 0 ∧ p.length * 8 < brUsed t) := fun hc => hoff' hc.2
            have hin' : ¬ (e ≠ 0 ∧ s.length * 8 < brUsed t') := fun hc => by omega
            rw [if_neg hin, if_neg hin', if_pos he.1, if_pos he.1, if_neg he.2]
            exact .inr ⟨rfl, fun h0 => absurd h0 he.1⟩
      | ok x =>
          have hin := hends x rfl
          rw [hl.1.source] at hin
          obtain ⟨rfl, htt⟩ := hb.resolve_left (Nat.not_lt.mpr hin)
          right
          rw [bzDblock_ok hx, bzDblock_ok hx']
          dsimp only
          have hin' : ∀ c : Prop, ¬ (c ∧ p.length * 8 < brUsed t) := fun _ hc => by omega
          have hin'' : ∀ c : Prop, ¬ (c ∧ s.length * 8 < brUsed t') := fun _ hc => by omega
          rw [if_neg (hin' _), if_neg (hin'' _), ← htt]
          refine ⟨rfl, fun h0 => ?_⟩
          split
          · next hne =>
            rw [if_pos hne] at h0
            exact hbit
          · exact hin
  case neg =>
      rw [if_neg hblock, if_neg hblock]
      by_cases hend : m1 = 0x177245 ∧ m2 = 0x385090
      case pos =>
          rw [if_pos hend, if_pos hend]
          rcases stepSum_prefix h S hq hq' hqq with hmore | ⟨heq, hbound⟩
          · exact .inl (by rw [hmore])
          · exact .inr ⟨by rw [heq], hbound⟩
      case neg =>
          rw [if_neg hend, if_neg hend]
          exact .inr ⟨rfl, fun h0 => absurd (show (2 : ℤ) = 0 from h0) (by decide)⟩

end LoveRuntime.Bzip2
