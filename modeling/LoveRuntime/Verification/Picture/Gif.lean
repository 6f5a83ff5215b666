import LoveRuntime.Model.Picture.Gif
import Mathlib.Data.List.Nodup
import Mathlib.Tactic.Linarith
import Mathlib.Tactic.SplitIfs
import Mathlib.Tactic.IntervalCases

/-! The painter comes to its end: each code takes bits from the data, each code of the table leads down to a root, and
the rows come up in an order that meets none of them twice. -/

namespace LoveRuntime.Gif

open Checked

variable {s cv : Buf} {g : Gf} {trans : ℤ} {mcs clear next c k : ℕ}

/-! ### Opening -/

theorem look_gives {α : Type} {a : Slots α} {i : ℕ} {v : α} (hi : i < a.size) (hv : a i = some v) :
    look a i = .ok v := by
  rw [look, rd_of_lt hi, ok_bind, hv]
  rfl

theorem ld16le_gives {i : ℕ} (hi : i + 1 < s.size) : Gives (ld16le s i) fun _ => True := by
  apply Gives.rd_bind (by omega)
  apply Gives.rd_bind hi
  exact Gives.value trivial

/-- What an opened image keeps to. -/
structure Opened (s : Buf) (g : Gf) : Prop where
  palette : 0 < g.ncol → g.pal + 3 * g.ncol ≤ s.size
  data : g.data < s.size

theorem gfImage_gives {o sw sh : ℕ} (hs : 13 ≤ s.size) (ho : o + 10 ≤ s.size) :
    Gives (gfImage s o sw sh) fun r => ∀ g, r = .ok g → Opened s g := by
  apply (ld16le_gives (by omega)).bind
  intro fx _
  apply (ld16le_gives (by omega)).bind
  intro fy _
  apply (ld16le_gives (by omega)).bind
  intro fw _
  apply (ld16le_gives (by omega)).bind
  intro fh _
  apply Gives.rd_bind (by omega)
  have hpalette : Gives (gfPalette s o (s (o + 9))) fun _ => True := by
    unfold gfPalette
    split
    · exact Gives.value trivial
    · apply Gives.rd_bind (by omega)
      split
      · exact Gives.value trivial
      · exact Gives.value trivial
  apply hpalette.bind
  rintro ⟨ncol, pal, data⟩ _
  apply Gives.value
  intro g hg
  split at hg
  case isFalse => cases hg
  case isTrue hdata =>
    cases hg
    refine ⟨?_, hdata⟩
    dsimp only
    split
    case isTrue => intro hpos; exact absurd hpos (Nat.lt_irrefl 0)
    case isFalse hfits => intro _; omega

theorem gfOpen_gives (s : Buf) (o : ℤ) : Gives (gfOpen s o) fun r => ∀ g, r = .ok g → Opened s g := by
  have herror : ∀ n : ℕ, ∀ g, (Except.error n : Except ℕ Gf) = .ok g → Opened s g := by
    intro n g hg
    cases hg
  unfold gfOpen
  split
  case isTrue => exact Gives.value (herror 1)
  case isFalse hsize =>
    rw [mapM_eq (g := fun i => s i) fun i hi => rd_of_lt (by have := List.mem_range.mp hi; omega), ok_bind]
    split
    case isTrue => exact Gives.value (herror 1)
    case isFalse =>
      apply (ld16le_gives (by omega)).bind
      intro sw _
      apply (ld16le_gives (by omega)).bind
      intro sh _
      split
      case isTrue => exact Gives.value (herror 1)
      case isFalse =>
        split
        case isTrue => exact Gives.value (herror 2)
        case isFalse hin =>
          apply Gives.rd_bind (by omega)
          split
          case isTrue => exact Gives.value (herror 2)
          case isFalse => exact gfImage_gives (by omega) (by omega)

/-! ### Codes -/

/-- How many bits may still come. -/
def weight (s : Buf) (b : GfBits) : ℕ := 8 * (s.size - b.p) + b.bits

theorem gfBlock_gives (s : Buf) (b : GfBits) : Gives (gfBlock s b) fun r => ∀ b', r = some b' →
    weight s b' ≤ weight s b ∧ b'.bits = b.bits := by
  unfold gfBlock
  split
  case isTrue =>
    split
    case isTrue => exact Gives.value (by simp)
    case isFalse hin =>
      apply Gives.rd_bind (by omega)
      split
      case isTrue => exact Gives.value (by simp)
      case isFalse =>
        apply Gives.value
        rintro b' hb'
        cases hb'
        refine ⟨?_, rfl⟩
        unfold weight
        dsimp only
        omega
  case isFalse =>
    apply Gives.value
    rintro b' hb'
    cases hb'
    exact ⟨le_rfl, rfl⟩

theorem gfFill_gives {size : ℕ} (fuel : ℕ) (b : GfBits) (hpos : 0 < fuel) (hfuel : size < fuel + b.bits) :
    Gives (gfFill s size fuel b) fun r => ∀ b', r = some b' → size ≤ b'.bits ∧ weight s b' ≤ weight s b := by
  induction fuel generalizing b with
  | zero => exact absurd hpos (Nat.lt_irrefl 0)
  | succ fuel ih =>
      rw [gfFill]
      split
      case isFalse hfull =>
        apply Gives.value
        rintro b' hb'
        cases hb'
        exact ⟨by omega, le_rfl⟩
      case isTrue hlow =>
        apply (gfBlock_gives s b).bind
        intro r hr
        cases r with
        | none => exact Gives.value (by simp)
        | some b₁ =>
            obtain ⟨hweight, hbits⟩ := hr b₁ rfl
            dsimp only
            split
            case isTrue => exact Gives.value (by simp)
            case isFalse hin =>
              apply Gives.rd_bind (by omega)
              apply (ih _ (by omega) (by dsimp only; omega)).mono
              intro r hr b' hb'
              obtain ⟨hsize, hle⟩ := hr b' hb'
              refine ⟨hsize, ?_⟩
              unfold weight at *
              dsimp only at hle
              omega

theorem gfCode_gives (s : Buf) (size : ℕ) (b : GfBits) : Gives (gfCode s size b) fun r => ∀ c b', r = some (c, b') →
    c < 2 ^ size ∧ weight s b' + size ≤ weight s b := by
  apply (gfFill_gives (size + 1) b (by omega) (by omega)).bind
  intro r hr
  cases r with
  | none => exact Gives.value (by simp)
  | some b₁ =>
      obtain ⟨hsize, hle⟩ := hr b₁ rfl
      apply Gives.value
      rintro c b' hb'
      cases hb'
      refine ⟨Nat.mod_lt _ (Nat.two_pow_pos size), ?_⟩
      unfold weight at *
      dsimp only
      omega

/-! ### The table -/

/-- The roots, and the codes entered from two past the clear code on. -/
def Code (clear c : ℕ) : Prop := c < clear ∨ clear + 2 ≤ c

/-- Every code below `next` has its bytes, and one entered later leads to one before it. -/
structure Filled (clear next : ℕ) (t : Table) : Prop where
  prefixes_size : t.prefixes.size = 4096
  suffix_size : t.suffix.size = 4096
  first_size : t.first.size = 4096
  suffix : ∀ c < next, Code clear c → ∃ v, t.suffix c = some v
  first : ∀ c < next, Code clear c → ∃ v, t.first c = some v
  link : ∀ c < next, clear + 2 ≤ c → ∃ u, t.prefixes c = some u ∧ Code clear u ∧ u < c

theorem gfRoots_give (hclear : clear ≤ 4096) : Gives ((List.range clear).foldlM gfRoot
    ⟨Cells.fill 4096 none, Cells.fill 4096 none, Cells.fill 4096 none⟩) (Filled clear (clear + 2)) := by
  have hfold : Gives ((List.range clear).foldlM gfRoot
      ⟨Cells.fill 4096 none, Cells.fill 4096 none, Cells.fill 4096 none⟩) fun t =>
        t.prefixes.size = 4096 ∧ t.suffix.size = 4096 ∧ t.first.size = 4096 ∧
          ∀ c < clear, (∃ v, t.suffix c = some v) ∧ ∃ v, t.first c = some v := by
    apply Gives.range fun i (t : Table) => t.prefixes.size = 4096 ∧ t.suffix.size = 4096 ∧ t.first.size = 4096 ∧
      ∀ c < i, (∃ v, t.suffix c = some v) ∧ ∃ v, t.first c = some v
    case init => exact ⟨rfl, rfl, rfl, by omega⟩
    case step =>
      rintro i hi t ⟨hp, hs, hf, hset⟩
      apply Gives.wr_bind (by omega)
      apply Gives.wr_bind (by omega)
      apply Gives.wr_bind (by omega)
      refine Gives.value ⟨hp, hs, hf, ?_⟩
      intro c hc
      by_cases hci : c = i
      case pos =>
        rw [hci]
        exact ⟨⟨_, Cells.set_self _ _ _⟩, ⟨_, Cells.set_self _ _ _⟩⟩
      case neg =>
        dsimp only
        rw [Cells.set_of_ne _ _ hci, Cells.set_of_ne _ _ hci]
        exact hset c (by omega)
  apply hfold.mono
  rintro t ⟨hp, hs, hf, hset⟩
  constructor
  case prefixes_size => exact hp
  case suffix_size => exact hs
  case first_size => exact hf
  case suffix => exact fun c hc hcode => (hset c (by unfold Code at hcode; omega)).1
  case first => exact fun c hc hcode => (hset c (by unfold Code at hcode; omega)).2
  case link => omega

/-- A new code keeps the table filled. -/
theorem gfEnter_gives {t : Table} {prev : ℕ} (ht : Filled clear next t) (hnext : next < 4096)
    (hlow : clear + 2 ≤ next) (hprev : Code clear prev) (hprev' : prev < next) (hc : Code clear c) (hc' : c ≤ next) :
    Gives (gfEnter t next prev c) (Filled clear (next + 1)) := by
  obtain ⟨hp, hs, hf, hsuffix, hfirst, hlink⟩ := ht
  obtain ⟨f, hfprev⟩ := hfirst prev hprev' hprev
  unfold gfEnter
  rw [look_gives (by omega) hfprev, ok_bind]
  apply Gives.wr_bind (by omega)
  apply Gives.wr_bind (by omega)
  have hlast : ∃ v, t.first.set next (some f) (if c < next then c else prev) = some v := by
    split
    case isTrue hlt =>
      rw [Cells.set_of_ne _ _ (by omega)]
      exact hfirst c hlt hc
    case isFalse =>
      rw [Cells.set_of_ne _ _ (by omega)]
      exact ⟨f, hfprev⟩
  obtain ⟨last, hlast⟩ := hlast
  rw [look_gives (by rw [Cells.set]; dsimp only; split <;> omega) hlast, ok_bind]
  apply Gives.wr_bind (by omega)
  apply Gives.value
  constructor
  case prefixes_size => exact hp
  case suffix_size => exact hs
  case first_size => exact hf
  case suffix =>
    intro i hi hcode
    dsimp only
    by_cases hin : i = next
    case pos => rw [hin]; exact ⟨_, Cells.set_self _ _ _⟩
    case neg => rw [Cells.set_of_ne _ _ hin]; exact hsuffix i (by omega) hcode
  case first =>
    intro i hi hcode
    dsimp only
    by_cases hin : i = next
    case pos => rw [hin]; exact ⟨_, Cells.set_self _ _ _⟩
    case neg => rw [Cells.set_of_ne _ _ hin]; exact hfirst i (by omega) hcode
  case link =>
    intro i hi hcode
    dsimp only
    by_cases hin : i = next
    case pos => rw [hin]; exact ⟨prev, Cells.set_self _ _ _, hprev, hprev'⟩
    case neg => rw [Cells.set_of_ne _ _ hin]; exact hlink i (by omega) hcode

/-- The codes met from `c` down to a root, each the prefix of the one before and below it. -/
inductive Trail (t : Table) (clear : ℕ) : ℕ → List ℕ → Prop where
  | root {c : ℕ} (h : c < clear) : Trail t clear c [c]
  | link {c u : ℕ} {l : List ℕ} (h : clear ≤ c) (hu : t.prefixes c = some u) (hlt : u < c) (rest : Trail t clear u l) :
      Trail t clear c (c :: l)

/-- Every code of the table has its trail, no longer than the code is high. -/
theorem Filled.trail {t : Table} (ht : Filled clear next t) (hc : c < next) (hcode : Code clear c) :
    ∃ l, Trail t clear c l ∧ l.length ≤ c + 1 ∧ ∀ i ∈ l, i < next ∧ Code clear i := by
  induction c using Nat.strong_induction_on with
  | _ c ih =>
      rcases hcode with hroot | hhigh
      case inl => exact ⟨[c], .root hroot, by simp, by simp [hc, Code, hroot]⟩
      case inr =>
        obtain ⟨u, hu, hucode, hlt⟩ := ht.link c hc hhigh
        obtain ⟨l, hl, hlen, hmem⟩ := ih u hlt (by omega) hucode
        refine ⟨c :: l, .link (by omega) hu hlt hl, by simp; omega, ?_⟩
        intro i hi
        rcases List.mem_cons.mp hi with rfl | hi
        case inl => exact ⟨hc, .inr hhigh⟩
        case inr => exact hmem i hi

/-- The string of a code comes to the stack, a cell to each code of the trail. -/
theorem gfSpell_gives {t : Table} {l : List ℕ} (htrail : Trail t clear c l) (ht : Filled clear next t)
    (hmem : ∀ i ∈ l, i < next ∧ Code clear i) (hnext : next ≤ 4096) {fuel : ℕ} (hfuel : l.length ≤ fuel)
    (stack : Slots UInt8) (hroom : k + l.length ≤ stack.size) (hset : ∀ i < k, ∃ v, stack i = some v) :
    Gives (gfSpell t clear fuel c stack k) fun r => r.1.size = stack.size ∧ r.2 ≤ r.1.size ∧
      ∀ i < r.2, ∃ v, r.1 i = some v := by
  induction htrail generalizing k fuel stack with
  | @root c hroot =>
      obtain ⟨fuel, rfl⟩ : ∃ f, fuel = f + 1 := ⟨fuel - 1, by simp at hfuel; omega⟩
      obtain ⟨hlt, hcode⟩ := hmem c List.mem_cons_self
      obtain ⟨v, hv⟩ := ht.suffix c hlt hcode
      have hsize := ht.suffix_size
      rw [gfSpell, look_gives (by omega) hv, ok_bind]
      rw [List.length_singleton] at hroom
      apply Gives.wr_bind (by omega)
      rw [if_pos hroot]
      refine Gives.value ⟨rfl, hroom, ?_⟩
      intro i hi
      by_cases hik : i = k
      case pos => rw [hik]; exact ⟨v, Cells.set_self _ _ _⟩
      case neg => dsimp only; rw [Cells.set_of_ne _ _ hik]; exact hset i (by omega)
  | @link c u l hge hu hlt hrest ih =>
      obtain ⟨fuel, rfl⟩ : ∃ f, fuel = f + 1 := ⟨fuel - 1, by simp at hfuel; omega⟩
      obtain ⟨hcn, hcode⟩ := hmem c List.mem_cons_self
      obtain ⟨v, hv⟩ := ht.suffix c hcn hcode
      have hsize := ht.suffix_size
      have hsize' := ht.prefixes_size
      rw [gfSpell, look_gives (by omega) hv, ok_bind]
      rw [List.length_cons] at hroom hfuel
      apply Gives.wr_bind (by omega)
      rw [if_neg (by omega), look_gives (by omega) hu, ok_bind]
      apply ih (fun i hi => hmem i (List.mem_cons_of_mem c hi)) (by omega) _ (by rw [Cells.set]; dsimp only; omega)
      intro i hi
      by_cases hik : i = k
      case pos => rw [hik]; exact ⟨v, Cells.set_self _ _ _⟩
      case neg => rw [Cells.set_of_ne _ _ hik]; exact hset i (by omega)

/-! ### Rows -/

/-- The pass a row of an interlaced image comes up in. -/
def passOf (y : ℕ) : ℕ := if y % 8 = 0 then 0 else if y % 8 = 4 then 1 else if y % 4 = 2 then 2 else 3

theorem passOf_iff {y pass : ℕ} : passOf y = pass ↔
    y % 8 = 0 ∧ pass = 0 ∨ y % 8 = 4 ∧ pass = 1 ∨ y % 4 = 2 ∧ pass = 2 ∨ y % 2 = 1 ∧ pass = 3 := by
  unfold passOf
  split_ifs <;> omega

theorem passOf_step {y pass : ℕ} (h : passOf y = pass) : passOf (y + step pass) = pass ∧ y < y + step pass := by
  rw [passOf_iff] at h ⊢
  rcases h with ⟨hmod, rfl⟩ | ⟨hmod, rfl⟩ | ⟨hmod, rfl⟩ | ⟨hmod, rfl⟩
  · rw [show step 0 = 8 by rfl]; omega
  · rw [show step 1 = 8 by rfl]; omega
  · rw [show step 2 = 4 by rfl]; omega
  · rw [show step 3 = 2 by rfl]; omega

/-- Where a row stands in the order they come up in. -/
def rank (g : Gf) (y : ℕ) : ℕ := if g.inter then passOf y * g.fh + y else y

/-- The row at hand is one of the pass at hand. -/
def InPass (g : Gf) (y pass : ℕ) : Prop := g.inter → pass ≤ 3 ∧ (y < g.fh → passOf y = pass)

theorem gfSkip_gives {y pass : ℕ} (fuel : ℕ) (hfuel : 4 ≤ fuel + pass) (hpass : pass ≤ 3) (hy : passOf y = pass) :
    Gives (gfSkip g fuel y pass) fun r => r.2 ≤ 3 ∧ passOf r.1 = r.2 ∧ (r = (y, pass) ∨ pass < r.2) := by
  induction fuel generalizing y pass with
  | zero => omega
  | succ fuel ih =>
      rw [gfSkip]
      split
      case isFalse => exact Gives.value ⟨hpass, hy, .inl rfl⟩
      case isTrue hskip =>
        apply Gives.rd_bind (by change pass + 1 < 4; omega)
        have hstart : passOf (start (pass + 1)) = pass + 1 := by
          have hlt := hskip.2
          interval_cases pass <;> rfl
        apply (ih (by omega) (by omega) hstart).mono
        rintro r ⟨hle, hpassOf, hmove⟩
        refine ⟨hle, hpassOf, .inr ?_⟩
        rcases hmove with rfl | hlt
        case inl => exact Nat.lt_succ_self pass
        case inr => omega

theorem gfRow_gives {y pass : ℕ} (hy : y < g.fh) (hpass : InPass g y pass) :
    Gives (gfRow g y pass) fun r => InPass g r.1 r.2 ∧ (r.1 < g.fh → rank g y < rank g r.1) := by
  unfold gfRow
  by_cases hinter : g.inter
  case neg =>
    rw [if_neg hinter]
    refine Gives.value ⟨fun h => absurd h hinter, fun _ => ?_⟩
    rw [rank, rank, if_neg hinter, if_neg hinter]
    exact Nat.lt_succ_self y
  case pos =>
    obtain ⟨hle, hin⟩ := hpass hinter
    have hpassOf := hin hy
    rw [if_pos hinter]
    apply Gives.rd_bind (by change pass < 4; omega)
    have hstep := passOf_step hpassOf
    apply (gfSkip_gives 4 (by omega) hle hstep.1).mono
    rintro r ⟨hle', hpassOf', hmove⟩
    refine ⟨fun _ => ⟨hle', fun _ => hpassOf'⟩, fun hr => ?_⟩
    rw [rank, rank, if_pos hinter, if_pos hinter, hpassOf, hpassOf']
    rcases hmove with rfl | hlt
    case inl => exact Nat.add_lt_add_left hstep.2 _
    case inr =>
      have hmul : (pass + 1) * g.fh ≤ r.2 * g.fh := Nat.mul_le_mul_right _ hlt
      rw [Nat.add_mul, Nat.one_mul] at hmul
      omega

/-! ### Pixels -/

/-- The place at hand comes after every place laid. -/
structure Cursor (g : Gf) (d : Paint) : Prop where
  column : d.x < g.fw
  pass : InPass g d.y d.pass
  before : d.y < g.fh → ∀ q ∈ d.laid, rank g q.2 < rank g d.y ∨ q.2 = d.y ∧ q.1 < d.x
  within : ∀ q ∈ d.laid, q.1 < g.fw ∧ q.2 < g.fh
  nodup : d.laid.Nodup

theorem Cursor.keep {d d' : Paint} (h : Cursor g d) (hx : d'.x = d.x) (hy : d'.y = d.y) (hpass : d'.pass = d.pass)
    (hlaid : d'.laid = d.laid) : Cursor g d' where
  column := by rw [hx]; exact h.column
  pass := by rw [hy, hpass]; exact h.pass
  before := by rw [hx, hy, hlaid]; exact h.before
  within := by rw [hlaid]; exact h.within
  nodup := by rw [hlaid]; exact h.nodup

theorem gfDot_gives {ix px py : ℕ} (hopen : Opened s g) (hcv : cv.size = 4 * (g.sw * g.sh)) :
    Gives (gfDot s g trans ix px py cv) fun r => r.size = cv.size := by
  have hcolour : Gives (gfColour s g ix) fun _ => True := by
    unfold gfColour
    split
    case isTrue hlt =>
      have hfit := hopen.palette (by omega)
      apply Gives.rd_bind (by omega)
      apply Gives.rd_bind (by omega)
      apply Gives.rd_bind (by omega)
      exact Gives.value trivial
    case isFalse => exact Gives.value trivial
  unfold gfDot
  split
  case isFalse => exact Gives.value rfl
  case isTrue hin =>
    apply hcolour.bind
    rintro ⟨red, green, blue⟩ _
    have hplace : 4 * (py * g.sw + px) + 3 < cv.size := by
      have hmul : (py + 1) * g.sw ≤ g.sh * g.sw := Nat.mul_le_mul_right _ hin.2.2
      rw [Nat.add_mul, Nat.one_mul, Nat.mul_comm g.sh] at hmul
      omega
    apply Gives.wr_bind (by omega)
    apply Gives.wr_bind (by rw [Cells.set]; dsimp only; omega)
    apply Gives.wr_bind (by rw [Cells.set, Cells.set]; dsimp only; omega)
    rw [wr_of_lt (by rw [Cells.set, Cells.set, Cells.set]; dsimp only; omega)]
    exact Gives.value rfl

/-- What one pixel leaves as it was. -/
structure Kept (d d' : Paint) : Prop where
  bits : d'.bits = d.bits
  size : d'.size = d.size
  next : d'.next = d.next
  prev : d'.prev = d.prev
  table : d'.table = d.table
  canvas : d'.canvas.size = d.canvas.size

theorem Kept.compose {d d' d'' : Paint} (h : Kept d d') (h' : Kept d' d'') : Kept d d'' where
  bits := h'.bits.trans h.bits
  size := h'.size.trans h.size
  next := h'.next.trans h.next
  prev := h'.prev.trans h.prev
  table := h'.table.trans h.table
  canvas := h'.canvas.trans h.canvas

theorem gfLay_gives {d : Paint} {ix : ℕ} (hopen : Opened s g) (hcv : d.canvas.size = 4 * (g.sw * g.sh))
    (hcur : Cursor g d) (hy : d.y < g.fh) :
    Gives (gfLay s g trans ix d) fun d' => Cursor g d' ∧ Kept d d' := by
  obtain ⟨hx, hpass, hbefore, hwithin, hnodup⟩ := hcur
  have hbefore := hbefore hy
  have hfresh : (d.x, d.y) ∉ d.laid := by
    intro hmem
    rcases hbefore _ hmem with hlt | ⟨-, hlt⟩
    · exact absurd hlt (Nat.lt_irrefl _)
    · exact absurd hlt (Nat.lt_irrefl _)
  have hnodup' : (d.laid ++ [(d.x, d.y)]).Nodup := by
    rw [List.nodup_append]
    refine ⟨hnodup, by simp, ?_⟩
    rintro q hq r hr rfl
    rw [List.mem_singleton] at hr
    exact hfresh (hr ▸ hq)
  have hwithin' : ∀ q ∈ d.laid ++ [(d.x, d.y)], q.1 < g.fw ∧ q.2 < g.fh := by
    intro q hq
    rcases List.mem_append.mp hq with hq | hq
    · exact hwithin q hq
    · rw [List.mem_singleton.mp hq]; exact ⟨hx, hy⟩
  apply (gfDot_gives hopen hcv).bind
  intro cv' hcv'
  dsimp only
  split
  case isTrue hend =>
    apply (gfRow_gives hy hpass).bind
    rintro ⟨y, pass⟩ ⟨hpass', hrank⟩
    refine Gives.value ⟨⟨by dsimp only; omega, hpass', ?_, hwithin', hnodup'⟩, ⟨rfl, rfl, rfl, rfl, rfl, hcv'⟩⟩
    intro hy' q hq
    left
    have hlt := hrank hy'
    rcases List.mem_append.mp hq with hq | hq
    · rcases hbefore q hq with hless | ⟨heq, -⟩
      · exact hless.trans hlt
      · rw [heq]; exact hlt
    · rw [List.mem_singleton.mp hq]; exact hlt
  case isFalse hmore =>
    refine Gives.value ⟨⟨?_, hpass, ?_, hwithin', hnodup'⟩, ⟨rfl, rfl, rfl, rfl, rfl, hcv'⟩⟩
    · dsimp only at hmore ⊢
      omega
    · intro _ q hq
      dsimp only at hq ⊢
      rcases List.mem_append.mp hq with hq | hq
      · rcases hbefore q hq with hless | ⟨heq, hlt⟩
        · exact .inl hless
        · exact .inr ⟨heq, by omega⟩
      · rw [List.mem_singleton.mp hq]
        exact .inr ⟨rfl, Nat.lt_succ_self _⟩

theorem gfUnstack_gives {stack : Slots UInt8} {d : Paint} (hopen : Opened s g)
    (hcv : d.canvas.size = 4 * (g.sw * g.sh)) (hcur : Cursor g d) (hk : k ≤ stack.size)
    (hset : ∀ i < k, ∃ v, stack i = some v) :
    Gives (gfUnstack s g trans stack k d) fun d' => Cursor g d' ∧ Kept d d' := by
  induction k generalizing d with
  | zero => exact Gives.value ⟨hcur, ⟨rfl, rfl, rfl, rfl, rfl, rfl⟩⟩
  | succ k ih =>
      rw [gfUnstack]
      split
      case isFalse => exact Gives.value ⟨hcur, ⟨rfl, rfl, rfl, rfl, rfl, rfl⟩⟩
      case isTrue hy =>
        obtain ⟨v, hv⟩ := hset k (Nat.lt_succ_self k)
        rw [look_gives (by omega) hv, ok_bind]
        apply (gfLay_gives hopen hcv hcur hy).bind
        rintro d' ⟨hcur', hkept⟩
        apply (ih (by rw [hkept.canvas, hcv]) hcur' (by omega) fun i hi => hset i (by omega)).mono
        rintro d'' ⟨hcur'', hkept'⟩
        exact ⟨hcur'', hkept.compose hkept'⟩

/-! ### Turns -/

/-- What holds between two codes. -/
structure Sound (g : Gf) (mcs : ℕ) (d : Paint) : Prop where
  size_pos : 0 < d.size
  size_le : d.size ≤ 12
  next_ge : 1 <<< mcs + 2 ≤ d.next
  next_le : d.next ≤ 4096
  table : Filled (1 <<< mcs) d.next d.table
  prev : ∀ u, d.prev = some u → Code (1 <<< mcs) u ∧ u < d.next
  canvas : d.canvas.size = 4 * (g.sw * g.sh)
  cursor : Cursor g d

theorem clear_le (hmcs : mcs ≤ 11) : 1 <<< mcs ≤ 2048 := by
  rw [Nat.shiftLeft_eq, Nat.one_mul]
  exact Nat.pow_le_pow_right (by decide) hmcs

theorem Filled.mono {t : Table} {next' : ℕ} (h : Filled clear next t) (hle : next' ≤ next) : Filled clear next' t where
  prefixes_size := h.prefixes_size
  suffix_size := h.suffix_size
  first_size := h.first_size
  suffix c hc := h.suffix c (by omega)
  first c hc := h.first c (by omega)
  link c hc := h.link c (by omega)

/-- Where a code leads: the state it is read into, and the bits still to come. -/
def Leads (s : Buf) (g : Gf) (mcs n : ℕ) : Verdict → Prop
  | .stop => True
  | .again d => Sound g mcs d ∧ weight s d.bits < n
  | .follow d c => Sound g mcs d ∧ weight s d.bits < n ∧ Code (1 <<< mcs) c ∧ c < d.next

theorem gfTake_gives {d : Paint} {n : ℕ} (h : Sound g mcs d) (hmcs : mcs ≤ 11) (hc : c < 2 ^ d.size)
    (hn : weight s d.bits < n) : Gives (gfTake mcs d c) (Leads s g mcs n) := by
  have hclear := clear_le hmcs
  have hnext := h.next_ge
  have hnext' := h.next_le
  have hpow : 2 ^ d.size ≤ 2 ^ 12 := Nat.pow_le_pow_right (by decide) h.size_le
  unfold gfTake
  dsimp only
  split
  case isTrue => exact Gives.value trivial
  case isFalse hend =>
    split
    case isTrue =>
      refine Gives.value ⟨?_, hn⟩
      constructor
      case size_pos => exact Nat.succ_pos mcs
      case size_le => dsimp only; omega
      case next_ge => exact le_rfl
      case next_le => dsimp only; omega
      case table => exact h.table.mono hnext
      case prev => simp
      case canvas => exact h.canvas
      case cursor => exact h.cursor.keep rfl rfl rfl rfl
    case isFalse hclr =>
      split
      case h_1 hnone =>
        apply Gives.value
        split
        case isTrue => exact trivial
        case isFalse hroot => exact ⟨h, hn, .inl (by omega), by omega⟩
      case h_2 prev hprev =>
        obtain ⟨hcode, hlt⟩ := h.prev prev hprev
        split
        case isTrue => exact Gives.value trivial
        case isFalse hle =>
          have hcc : Code (1 <<< mcs) c := by
            unfold Code
            omega
          split
          case isTrue hroom =>
            apply (gfEnter_gives h.table hroom hnext hcode hlt hcc (by omega)).bind
            intro t ht
            refine Gives.value ⟨?_, hn, hcc, by dsimp only; omega⟩
            constructor
            case size_pos =>
              have hpos := h.size_pos
              dsimp only
              split <;> omega
            case size_le =>
              have hle := h.size_le
              dsimp only
              split <;> omega
            case next_ge => dsimp only; omega
            case next_le => dsimp only; omega
            case table => exact ht
            case prev =>
              intro u hu
              obtain ⟨hcode', hlt'⟩ := h.prev u hu
              exact ⟨hcode', Nat.lt_succ_of_lt hlt'⟩
            case canvas => exact h.canvas
            case cursor => exact h.cursor.keep rfl rfl rfl rfl
          case isFalse hfull =>
            apply Gives.value
            split
            case isTrue => exact trivial
            case isFalse hne => exact ⟨h, hn, hcc, by omega⟩

theorem gfRead_gives {d : Paint} (h : Sound g mcs d) (hmcs : mcs ≤ 11) :
    Gives (gfRead s mcs d) (Leads s g mcs (weight s d.bits)) := by
  apply (gfCode_gives s d.size d.bits).bind
  intro r hr
  cases r with
  | none => exact Gives.value trivial
  | some r =>
      obtain ⟨c, b⟩ := r
      obtain ⟨hc, hweight⟩ := hr c b rfl
      have hpos := h.size_pos
      apply gfTake_gives (d := { d with bits := b }) _ hmcs hc (by dsimp only; omega)
      exact ⟨h.size_pos, h.size_le, h.next_ge, h.next_le, h.table, h.prev, h.canvas,
        h.cursor.keep rfl rfl rfl rfl⟩

theorem gfTurn_gives {d : Paint} (hopen : Opened s g) (h : Sound g mcs d) (hmcs : mcs ≤ 11) :
    Gives (gfTurn s g trans mcs d) fun r => ∀ d', r = some d' → Sound g mcs d' ∧ weight s d'.bits < weight s d.bits := by
  apply (gfRead_gives h hmcs).bind
  intro v hv
  cases v with
  | stop => exact Gives.value (by simp)
  | again d =>
      apply Gives.value
      rintro d' hd'
      cases hd'
      exact hv
  | follow d c =>
      obtain ⟨hs, hweight, hcode, hlt⟩ := hv
      have hnext := hs.next_le
      obtain ⟨l, htrail, hlen, hmem⟩ := hs.table.trail hlt hcode
      apply (gfSpell_gives (k := 0) htrail hs.table hmem hnext (by omega) (Cells.fill 4096 none)
        (by rw [Cells.fill]; dsimp only; omega) (by omega)).bind
      rintro ⟨stack, k⟩ ⟨-, hk, hset⟩
      dsimp only at hk hset ⊢
      have hcur : Cursor g { d with prev := some c } :=
        hs.cursor.keep rfl rfl rfl rfl
      apply (gfUnstack_gives (d := { d with prev := some c }) hopen hs.canvas hcur hk hset).bind
      rintro d' ⟨hcur', hkept⟩
      apply Gives.value
      rintro d'' hd''
      cases hd''
      rw [hkept.bits]
      refine ⟨?_, hweight⟩
      constructor
      case size_pos => rw [hkept.size]; exact hs.size_pos
      case size_le => rw [hkept.size]; exact hs.size_le
      case next_ge => rw [hkept.next]; exact hs.next_ge
      case next_le => rw [hkept.next]; exact hs.next_le
      case table => rw [hkept.next, hkept.table]; exact hs.table
      case prev =>
        intro u hu
        rw [hkept.prev] at hu
        cases hu
        rw [hkept.next]
        exact ⟨hcode, hlt⟩
      case canvas => rw [hkept.canvas]; exact hs.canvas
      case cursor => exact hcur'

theorem gfBegin_gives (hmcs : mcs ≤ 11) (hcv : cv.size = 4 * (g.sw * g.sh)) (hfw : 0 < g.fw) :
    Gives (gfBegin g mcs cv) fun d => Sound g mcs d ∧ weight s d.bits ≤ 8 * s.size := by
  have hclear := clear_le hmcs
  apply (gfRoots_give (show 1 <<< mcs ≤ 4096 by omega)).bind
  intro t ht
  refine Gives.value ⟨?_, by rw [weight]; dsimp only; omega⟩
  constructor
  case size_pos => exact Nat.succ_pos mcs
  case size_le => dsimp only; omega
  case next_ge => exact le_rfl
  case next_le => dsimp only; omega
  case table => exact ht
  case prev => simp
  case canvas => exact hcv
  case cursor =>
    constructor
    case column => exact hfw
    case pass => exact fun _ => ⟨Nat.zero_le 3, fun _ => rfl⟩
    case before => simp
    case within => simp
    case nodup => exact List.nodup_nil

theorem gfLoop_gives {d : Paint} (fuel : ℕ) (hopen : Opened s g) (h : Sound g mcs d) (hmcs : mcs ≤ 11)
    (hfuel : weight s d.bits < fuel) : Gives (gfLoop s g trans mcs fuel d) (Sound g mcs) := by
  induction fuel generalizing d with
  | zero => omega
  | succ fuel ih =>
      rw [gfLoop]
      split
      case isFalse => exact Gives.value h
      case isTrue =>
        apply (gfTurn_gives hopen h hmcs).bind
        intro r hr
        cases r with
        | none => exact Gives.value h
        | some d' =>
            obtain ⟨h', hlt⟩ := hr d' rfl
            exact ih h' (by omega)

/-! ### The painting -/

/-- The states a painting comes to between two codes. -/
inductive Reached (s : Buf) (g : Gf) (cv : Buf) (trans : ℤ) : Paint → Prop where
  | first {d : Paint} (hmcs : 1 ≤ s g.data ∧ s g.data ≤ 11) (hbox : g.fw ≠ 0 ∧ g.fh ≠ 0)
      (h : gfBegin g (s g.data).toNat cv = .ok d) : Reached s g cv trans d
  | turn {d d' : Paint} (hd : Reached s g cv trans d) (hy : d.y < g.fh)
      (h : gfTurn s g trans (s g.data).toNat d = .ok (some d')) : Reached s g cv trans d'

theorem Reached.sound {d : Paint} (hopen : Opened s g) (hcv : cv.size = 4 * (g.sw * g.sh))
    (h : Reached s g cv trans d) : (s g.data).toNat ≤ 11 ∧ Sound g (s g.data).toNat d := by
  induction h with
  | first hmcs hbox hd =>
      have hle : (s g.data).toNat ≤ 11 := hmcs.2
      exact ⟨hle, ((gfBegin_gives (s := s) hle hcv (Nat.pos_of_ne_zero hbox.1)).of_ok hd).1⟩
  | turn _ _ hturn ih => exact ⟨ih.1, ((gfTurn_gives hopen ih.2 ih.1).of_ok hturn _ rfl).1⟩

/-- The rows begun, in order. -/
def rowsOf (laid : List (ℕ × ℕ)) : List ℕ := (laid.filter fun q => q.1 = 0).map Prod.snd

theorem rowsOf_nodup {laid : List (ℕ × ℕ)} (h : laid.Nodup) : (rowsOf laid).Nodup := by
  unfold rowsOf
  apply List.Nodup.map_on _ (h.filter _)
  rintro ⟨x, y⟩ hp ⟨x', y'⟩ hq heq
  simp only [List.mem_filter, decide_eq_true_eq] at hp hq
  rw [Prod.mk.injEq]
  exact ⟨hp.2.trans hq.2.symm, heq⟩

/-- Opening looks at no byte past the end. Of an image it opens, on a canvas of the screen's size, the painting comes to
its end and touches nothing outside its arrays; every place of the box comes up once at most, and so does every row;
and a code it follows leads through codes ever lower, no more than the stack holds, to a root. -/
theorem gfPaint_safe (s : Buf) (o : ℤ) : gfOpen s o ≠ .error .wild ∧
    ∀ g, gfOpen s o = .ok (.ok g) → ∀ cv trans, cv.size = 4 * (g.sw * g.sh) →
      (∃ out laid, gfPaint s g cv trans = .ok (out, laid) ∧ out.size = cv.size ∧ laid.Nodup ∧ (rowsOf laid).Nodup ∧
        ∀ q ∈ laid, q.1 < g.fw ∧ q.2 < g.fh) ∧
      ∀ d, Reached s g cv trans d → ∀ d' c, gfRead s (s g.data).toNat d = .ok (.follow d' c) →
        ∃ l, Trail d'.table (1 <<< (s g.data).toNat) c l ∧ l.length ≤ 4096 := by
  have hgives := gfOpen_gives s o
  constructor
  case left =>
    obtain ⟨r, hr, -⟩ := hgives
    rw [hr]
    nofun
  case right =>
    intro g hg cv trans hcv
    have hopen := hgives.of_ok hg g rfl
    constructor
    case left =>
      have hpaint : Gives (gfPaint s g cv trans) fun r => r.1.size = cv.size ∧ r.2.Nodup ∧
          ∀ q ∈ r.2, q.1 < g.fw ∧ q.2 < g.fh := by
        apply Gives.rd_bind hopen.data
        split
        case isTrue => exact Gives.value ⟨rfl, List.nodup_nil, by simp⟩
        case isFalse hbox =>
          simp only [not_or] at hbox
          have hle : (s g.data).toNat ≤ 11 := UInt8.not_lt.mp hbox.2.1
          apply (gfBegin_gives (s := s) hle hcv (Nat.pos_of_ne_zero hbox.2.2.1)).bind
          rintro d ⟨hd, hweight⟩
          apply (gfLoop_gives (8 * s.size + 1) hopen hd hle (by omega)).bind
          intro d' hd'
          exact Gives.value ⟨by rw [hd'.canvas, hcv], hd'.cursor.nodup, hd'.cursor.within⟩
      obtain ⟨⟨out, laid⟩, hout, hsize, hnodup, hwithin⟩ := hpaint
      exact ⟨out, laid, hout, hsize, hnodup, rowsOf_nodup hnodup, hwithin⟩
    case right =>
      intro d hd d' c hread
      obtain ⟨hle, hsound⟩ := hd.sound hopen hcv
      obtain ⟨hsound', -, hcode, hlt⟩ := (gfRead_gives hsound hle).of_ok hread
      obtain ⟨l, htrail, hlen, -⟩ := hsound'.table.trail hlt hcode
      have hnext := hsound'.next_le
      exact ⟨l, htrail, by omega⟩

/-- A screen of one pixel, and an image of that size whose data is a clear code, a root and the end. -/
def dot : Buf where
  size := 27
  get := fun i => [71, 73, 70, 56, 57, 97, 1, 0, 1, 0, 0, 0, 0, 0x2c, 0, 0, 0, 0, 1, 0, 1, 0, 0, 2, 2, 0x44, 1].getD i 0

def dotFrame : Gf where
  sw := 1
  sh := 1
  fx := 0
  fy := 0
  fw := 1
  fh := 1
  inter := false
  ncol := 0
  pal := 0
  data := 23

set_option maxRecDepth 4000 in
theorem gfPaint_safe_dot : ∃ out laid, gfPaint dot dotFrame (Cells.fill 4 0) (-1) = .ok (out, laid) ∧
    out.size = 4 ∧ laid.Nodup ∧ (rowsOf laid).Nodup ∧ ∀ q ∈ laid, q.1 < 1 ∧ q.2 < 1 :=
  ((gfPaint_safe dot 13).2 dotFrame (by rfl) (Cells.fill 4 0) (-1) rfl).1

end LoveRuntime.Gif
