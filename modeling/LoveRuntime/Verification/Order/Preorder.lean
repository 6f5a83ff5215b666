import LoveRuntime.Verification.Order.Walk
import Mathlib.Tactic.SplitIfs

/-! Values that the order ties are equal. -/

namespace LoveRuntime

open Outcome

namespace KindCore

variable {g : KindCore} {a b x y : ℕ} (S : Stock g)

/-! ## Leaves -/

/-- What equality makes of two values with one head. -/
inductive Tie (g : KindCore) (a b : ℕ) : Prop where
  | same (h : a = b)
  | data (h : g.eqvLeaf a b = .yes) (hcharm : charmp a = false) (hnom : g.nomp a = false)
  | chain (ha : g.chainp a = true) (hb : g.chainp b = true) (h : g.eqvLeaf a b = .chain)
  | coin (ha : g.coinp a = true) (hb : g.coinp b = true) (h : g.eqvLeaf a b = .coin)

theorem eqvLeaf_data {d : DataKind} (hab : a ≠ b) (ha : charmp a = false) (hb : charmp b = false)
    (hda : g.ap a = .data d) (hdb : g.ap b = .data d) : g.eqvLeaf a b = g.eqvData a b d := by
  simp [Core.eqvLeaf, hab, Core.coinp, Core.datp, Core.dat, ha, hb, hda, hdb]

theorem map_cast_inj {l m : List ℕ} (h : l.map (Nat.cast : ℕ → ℤ) = m.map Nat.cast) : l = m :=
  List.map_injective_iff.mpr Nat.cast_injective h

theorem length_txt (x : ℕ) : (g.txt x).length = g.cell x 1 := by
  simp [Core.txt]

theorem tie_string (ha : g.strp a = true) (hb : g.strp b = true) (h : g.order a = g.order b) :
    Tie g a b := by
  by_cases hab : a = b
  · exact .same hab
  · obtain ⟨hca, hda⟩ := strp_iff.mp ha
    obtain ⟨hcb, hdb⟩ := strp_iff.mp hb
    rw [order_string ha, order_string hb] at h
    have htxt := map_cast_inj h
    have hlen : g.cell a 1 = g.cell b 1 := by rw [← length_txt a, ← length_txt b, htxt]
    have hbytes : g.sameBytes a b (2 * g.arch.bytes) (g.cell a 1) = true := by
      rw [sameBytes_iff]
      intro i hi
      rw [Core.txt, Core.txt, ← hlen, List.map_inj_left] at htxt
      exact htxt i (List.mem_range.mpr hi)
    refine .data ?_ hca (not_nomp_of_rank (cmpRank_string ha) (by decide))
    rw [eqvLeaf_data hab hca hcb hda hdb, Core.eqvData, hlen, ← hlen, hbytes]
    simp [hlen]

theorem limbBytes_pos (g : KindCore) : 0 < g.limbBytes := by
  have h := g.limb_eq
  have := g.limbs.limbBits_pos
  omega

theorem byte_lt (g : Core) (x i : ℕ) : g.byte x i < 256 := Nat.mod_lt _ (by decide)

theorem limb_inj {i : ℕ} (h : g.limb a i = g.limb b i) {j : ℕ} (hj : j < g.limbBytes) :
    g.byte a (2 * g.arch.bytes + (i * g.limbBytes + j)) =
      g.byte b (2 * g.arch.bytes + (i * g.limbBytes + j)) := by
  have hdigit : ∀ z, ∀ d ∈ (List.range g.limbBytes).map (fun j =>
      g.byte z (2 * g.arch.bytes + (i * g.limbBytes + j))), d < 256 := by
    intro z d hd
    obtain ⟨k, -, rfl⟩ := List.mem_map.mp hd
    exact byte_lt _ _ _
  have hlist := Nat.ofDigits_inj_of_len_eq (b := 256) (by decide) (by simp) (hdigit a) (hdigit b) h
  rw [List.map_inj_left] at hlist
  exact hlist j (List.mem_range.mpr hj)

theorem slen_eq (hneg : decide (g.arch.signed (g.cell a 1) < 0) = decide (g.arch.signed (g.cell b 1) < 0))
    (hlen : g.bigLimbs a = g.bigLimbs b) : g.cell a 1 = g.cell b 1 := by
  have ha : g.cell a 1 < 2 ^ g.arch.bits := g.words _
  have hb : g.cell b 1 < 2 ^ g.arch.bits := g.words _
  have hbits := two_pow_bits g.arch
  have hhalf := two_pow_half g.arch
  have hiff := decide_eq_decide.mp hneg
  clear hneg
  simp only [Core.bigLimbs, Arch.signed] at hiff hlen
  generalize g.cell a 1 = s at *
  generalize g.cell b 1 = t at *
  generalize 2 ^ (g.arch.bits - 2) = q at *
  have hcast : ((2 : ℤ) ^ g.arch.bits) = 4 * q := by exact_mod_cast hbits
  rw [hhalf, hcast] at hiff
  rw [hhalf, hbits] at hlen
  rw [hbits] at ha hb
  split_ifs at hlen hiff <;> omega

theorem tie_big (hab : a ≠ b) (ha : g.bigp a = true) (hb : g.bigp b = true) (h : g.num a = g.num b) :
    Tie g a b := by
  obtain ⟨hca, hda⟩ := bigp_iff.mp ha
  obtain ⟨hcb, hdb⟩ := bigp_iff.mp hb
  rw [num, num, hca, hcb, if_neg (by decide), if_neg (by decide)] at h
  obtain ⟨hneg, hlimbs⟩ := Num.big.inj h
  have hlen : g.bigLimbs a = g.bigLimbs b := by
    have := congrArg List.length hlimbs
    simpa using this
  have hslen := slen_eq hneg hlen
  have hbytes : g.sameBytes a b (2 * g.arch.bytes) (g.bigLimbs a * g.limbBytes) = true := by
    rw [sameBytes_iff]
    intro i hi
    have hpos := limbBytes_pos g
    have hq : i / g.limbBytes < g.bigLimbs a := Nat.div_lt_of_lt_mul (by rwa [Nat.mul_comm] at hi)
    rw [← hlen, List.map_inj_left] at hlimbs
    have := limb_inj (hlimbs _ (List.mem_range.mpr hq)) (Nat.mod_lt i hpos)
    rwa [Nat.div_add_mod'] at this
  refine .data ?_ hca (not_nomp_of_rank (cmpRank_big ha) (by decide))
  rw [eqvLeaf_data hab hca hcb hda hdb, Core.eqvData, hbytes]
  simp [hslen]

include S in
/-- Equal heads. -/
theorem tie_of_head (hax : a ∈ S.words) (hbx : b ∈ S.words) (h : g.head a = g.head b) : Tie g a b := by
  have hr : g.cmpRank a = g.cmpRank b := by exact_mod_cast (List.cons.inj h).1
  have ho : g.order a = g.order b := (List.cons.inj h).2
  have ha := (S.plain a hax).band
  have hb := (S.plain b hbx).band
  rw [← hr] at hb
  generalize g.cmpRank a = r at ha hb
  cases ha with
  | point hx =>
      cases hb with
      | point hy =>
          refine .same ?_
          cases hna : g.namep a with
          | false =>
              cases hnb : g.namep b with
              | false =>
                  rw [order_mint hx hna, order_mint hy hnb] at ho
                  exact S.mints a hax b hbx hx hy hna hnb (by simpa using ho)
              | true =>
                  rw [order_mint hx hna, order_nom hnb] at ho
                  simp at ho
          | true =>
              cases hnb : g.namep b with
              | false =>
                  rw [order_nom hna, order_mint hy hnb] at ho
                  simp at ho
              | true =>
                  rw [order_nom hna, order_nom hnb] at ho
                  exact S.noms a hax b hbx hna hnb (map_cast_inj (List.cons.inj ho).2)
  | string hx =>
      cases hb with
      | string hy => exact tie_string hx hy ho
  | number hx hcanon hword =>
      cases hb with
      | number hy hcanon' hword' =>
          rw [order_number hx, order_number hy] at ho
          have hnum := canonical_unique hcanon hcanon' (List.cons.inj ho).1
          by_cases hab : a = b
          · exact .same hab
          · cases hca : charmp a with
            | true =>
                rw [num, if_pos hca] at hnum
                cases hcb : charmp b with
                | true =>
                    rw [num, if_pos hcb, Num.charm.injEq] at hnum
                    exact .same (getcharm_inj hca hcb (hword hca) (hword' hcb) hnum)
                | false =>
                    rw [num, hcb] at hnum
                    cases hnum
            | false =>
                cases hcb : charmp b with
                | true =>
                    rw [num, num, hca, if_pos hcb] at hnum
                    cases hnum
                | false =>
                    rw [hca, Bool.false_or] at hx
                    rw [hcb, Bool.false_or] at hy
                    exact tie_big hab hx hy hnum
  | chain hx _ _ =>
      cases hb with
      | chain hy _ _ =>
          obtain ⟨hca, hda⟩ := chainp_iff.mp hx
          obtain ⟨hcb, hdb⟩ := chainp_iff.mp hy
          by_cases hab : a = b
          · exact .same hab
          · exact .chain hx hy (by rw [eqvLeaf_data hab hca hcb hda hdb, Core.eqvData])
  | tablet hx =>
      cases hb with
      | tablet hy =>
          rw [order_tablet hx, order_tablet hy] at ho
          exact .same (S.tablets a hax b hbx hx hy (by simpa using ho))
  | coin hx _ _ =>
      cases hb with
      | coin hy _ _ =>
          by_cases hab : a = b
          · exact .same hab
          · rw [order_coin hx, order_coin hy] at ho
            have hk : g.cell a 1 = g.cell b 1 := by
              have := (List.cons.inj (List.cons.inj ho).2).1
              exact_mod_cast this
            exact .coin hx hy (by simp [Core.eqvLeaf, hab, hx, hy, hk])

/-! ## The walk of equality -/

/-- What the walk of equality does after a pair. -/
def eqOn (g : Core) (nseen room n : ℕ) : Core.EqNext → Except Halt Bool
  | .settled equal => .ok equal
  | .walk a b seen work => g.eqvAt nseen room n a b seen work

theorem eqvAt_turn {g : Core} {nseen room n a b : ℕ} {seen work : List (ℕ × ℕ)} {next : Core.EqNext}
    (h : g.eqvTurn nseen room a b seen work = .ok next) :
    g.eqvAt nseen room (n + 1) a b seen work = eqOn g nseen room n next := by
  rw [Core.eqvAt, h]
  cases next <;> rfl

/-- A walk in room enough goes past the pair. -/
def Passes (g : KindCore) (a b : ℕ) : Prop :=
  ∃ n need, ∀ nseen room seen work, need ≤ room - 2 * work.length → ∀ k,
    g.eqvAt nseen room (n + k) a b seen work = eqOn g.toCore nseen room k (Core.drain seen work)

theorem passes_yes (h : g.eqvLeaf a b = .yes) : Passes g a b := by
  refine ⟨1, 0, fun nseen room seen work _ k => ?_⟩
  rw [Nat.add_comm 1 k]
  exact eqvAt_turn (by rw [Core.eqvTurn, h])

theorem eqvLeaf_same (h : a = b) : g.eqvLeaf a b = .yes := by
  rw [Core.eqvLeaf, if_pos h]

theorem passes_chain (h : g.eqvLeaf a b = .chain) (hcar : Passes g (g.cell a 1) (g.cell b 1))
    (hcdr : Passes g (g.cell a 2) (g.cell b 2)) : Passes g a b := by
  obtain ⟨n₁, need₁, h₁⟩ := hcar
  obtain ⟨n₂, need₂, h₂⟩ := hcdr
  refine ⟨n₁ + n₂ + 1, need₁ + need₂ + 2, fun nseen room seen work hroom k => ?_⟩
  have hturn : g.eqvTurn nseen room a b seen work =
      .ok (.walk (g.cell a 1) (g.cell b 1) seen ((g.cell a 2, g.cell b 2) :: work)) := by
    rw [Core.eqvTurn, h]
    exact if_neg (by omega)
  rw [show n₁ + n₂ + 1 + k = (n₁ + (n₂ + k)) + 1 by omega, eqvAt_turn hturn, eqOn,
    h₁ nseen room seen _ (by rw [List.length_cons]; omega)]
  exact h₂ nseen room seen work (by omega) k

theorem passes_coin (h : g.eqvLeaf a b = .coin) (hload : Passes g (g.coinLoad a) (g.coinLoad b)) :
    Passes g a b := by
  obtain ⟨n₁, need₁, h₁⟩ := hload
  refine ⟨n₁ + 1, need₁, fun nseen room seen work hroom k => ?_⟩
  have hturn : g.eqvTurn nseen room a b seen work =
      .ok (.walk (g.coinLoad a) (g.coinLoad b) seen work) := by
    rw [Core.eqvTurn, h]
    rfl
  rw [show n₁ + 1 + k = (n₁ + k) + 1 by omega, eqvAt_turn hturn, eqOn]
  exact h₁ nseen room seen work hroom k

include S in
theorem passes_listed {l : List (List ℤ)} (hax : a ∈ S.words) (hbx : b ∈ S.words)
    (hla : Listed g a l) (hlb : Listed g b l) : Passes g a b := by
  induction hla generalizing b with
  | @leaf a ha =>
      obtain ⟨t, ht⟩ := hlb.cons
      cases tie_of_head S hax hbx (List.cons.inj ht).1 with
      | same h => exact passes_yes (eqvLeaf_same h)
      | data h _ _ => exact passes_yes h
      | chain hc _ _ => exact absurd ((arity_chain hc).symm.trans ha) (by decide)
      | coin hc _ _ => exact absurd ((arity_coin hc).symm.trans ha) (by decide)
  | @chain a l₁ l₂ ha hcar hcdr ihcar ihcdr =>
      obtain ⟨t, ht⟩ := hlb.cons
      cases tie_of_head S hax hbx (List.cons.inj ht).1 with
      | same h => exact passes_yes (eqvLeaf_same h)
      | data h _ _ => exact passes_yes h
      | coin hc _ _ => exact absurd ((arity_chain ha).symm.trans (arity_coin hc)) (by decide)
      | chain _ hb h =>
          obtain ⟨m₁, m₂, hm, hcar', hcdr'⟩ := hlb.of_chain hb
          obtain ⟨rfl, rfl⟩ := hcar.lists.append_inj hcar'.lists (List.cons.inj hm).2
          exact passes_chain h (ihcar (S.car a hax ha) (S.car b hbx hb) hcar')
            (ihcdr (S.cdr a hax ha) (S.cdr b hbx hb) hcdr')
  | @coin a l ha hload ih =>
      obtain ⟨t, ht⟩ := hlb.cons
      cases tie_of_head S hax hbx (List.cons.inj ht).1 with
      | same h => exact passes_yes (eqvLeaf_same h)
      | data h _ _ => exact passes_yes h
      | chain hc _ _ => exact absurd ((arity_coin ha).symm.trans (arity_chain hc)) (by decide)
      | coin _ hb h =>
          obtain ⟨m, hm, hload'⟩ := hlb.of_coin hb
          obtain rfl := (List.cons.inj hm).2
          exact passes_coin h (ih (S.load a hax ha) (S.load b hbx hb) hload')

include S in
/-- Two values with one listing are equal. -/
theorem eql_of_listed {l : List (List ℤ)} (hax : a ∈ S.words) (hbx : b ∈ S.words)
    (hla : Listed g a l) (hlb : Listed g b l) : ∃ fuel room, g.eql fuel room a b = .ok true := by
  obtain ⟨t, ht⟩ := hla.cons
  obtain ⟨u, hu⟩ := hlb.cons
  by_cases hab : a = b
  · exact ⟨0, 0, by rw [Core.eql, if_pos hab]⟩
  · -- neither charms nor points: those are equal only when they are one
    have htie := tie_of_head S hax hbx (List.cons.inj (ht.symm.trans hu)).1
    have hguard : (charmp a && charmp b || g.nomp a && g.nomp b) = false := by
      cases htie with
      | same h => exact absurd h hab
      | data _ hcharm hnom => rw [hcharm, hnom]; rfl
      | chain hc _ _ =>
          rw [(chainp_iff.mp hc).1, not_nomp_of_rank (cmpRank_chain hc) (by decide)]
          rfl
      | coin hc _ _ =>
          rw [(coinp_iff.mp hc).1, not_nomp_of_rank (cmpRank_coin hc) (by decide)]
          rfl
    obtain ⟨n, need, hpass⟩ := passes_listed S hax hbx hla hlb
    refine ⟨n, 8 * need, ?_⟩
    have hat := hpass (8 * need / 8) (8 * need - 2 * (8 * need / 8)) [] [] (by simp; omega) 0
    rw [Core.eql, if_neg hab, hguard, if_neg (by decide), Core.eqv]
    cases htie with
    | same h => exact absurd h hab
    | data h _ _ => rw [h]
    | chain _ _ h =>
        rw [h]
        exact hat
    | coin _ _ h =>
        rw [h]
        exact hat

end KindCore

end LoveRuntime

/-! # The value order is a total preorder when kinds have serials of their own

Two coins of distinct kinds whose serials are not told apart fall through to the hash, which
reads no more of a coin than its length: they tie, whatever is in them. -/

namespace LoveRuntime

open Outcome

namespace KindCore

/-- `cmp3` answers `c`. -/
def Cmp (g : KindCore) (a b : ℕ) (c : Ordering) : Prop := ∃ fuel room, g.cmp3 fuel room a b = .ok c

def Equal (g : KindCore) (a b : ℕ) : Prop := ∃ fuel room, g.eql fuel room a b = .ok true

/-- In order by `cmp3`. -/
def Sorted (g : KindCore) (l : List ℕ) : Prop := l.Pairwise fun a b => ∃ c, Cmp g a b c ∧ c ≠ .gt

/-- The order on a set of values: every two are compared, the two ways round alike, through
ties too; values that tie are equal, and a list has one sorted arrangement. -/
structure TotalPreorder (g : KindCore) (S : Set ℕ) : Prop where
  answers : ∀ a ∈ S, ∀ b ∈ S, ∃! c, Cmp g a b c
  swap : ∀ a ∈ S, ∀ b ∈ S, ∀ c, Cmp g a b c → Cmp g b a c.swap
  trans : ∀ a ∈ S, ∀ b ∈ S, ∀ d ∈ S, ∀ c c', Cmp g a b c → Cmp g b d c' → c ≠ .gt → c' ≠ .gt →
    Cmp g a d (c.then c')
  ties : ∀ a ∈ S, ∀ b ∈ S, Cmp g a b .eq → Equal g a b
  sorted : ∀ l m : List ℕ, (∀ x ∈ l, x ∈ S) → l.Perm m → Sorted g l → Sorted g m →
    List.Forall₂ (Equal g) l m

variable {g : KindCore} {a b x : ℕ} (S : Stock g)

theorem Cmp.unique {c c' : Ordering} (h : Cmp g a b c) (h' : Cmp g a b c') : c = c' := by
  obtain ⟨fuel, room, h⟩ := h
  obtain ⟨fuel', room', h'⟩ := h'
  have hc := cmp3_persists (le_max_left room room') (le_max_left fuel fuel') a b c h
  have hc' := cmp3_persists (le_max_right room room') (le_max_right fuel fuel') a b c' h'
  rw [hc] at hc'
  exact Except.ok.inj hc'

/-! ## Kinds apart -/

/-- What a value is sorted by. -/
noncomputable def listing (g : KindCore) (x : ℕ) : List (List ℤ) := Classical.epsilon (Listed g x)

theorem listed_listing (h : Plain g x) : Listed g x (g.listing x) := Classical.epsilon_spec h.listed

theorem cmp_iff (hapart : KindsApart g S.words) (ha : a ∈ S.words) (hb : b ∈ S.words) {c : Ordering} :
    Cmp g a b c ↔ c = cmpLists (g.listing a) (g.listing b) := by
  have hcmp : Cmp g a b (cmpLists (g.listing a) (g.listing b)) := by
    obtain ⟨n, need, h⟩ := walks_listed S hapart ha hb (listed_listing (S.plain a ha))
      (listed_listing (S.plain b hb))
    refine ⟨n + need, need, ?_⟩
    rw [cmp3, h (n + need) (by omega) need [] (by simp) need, walkOn]
    split <;> rfl
  exact ⟨fun h => h.unique hcmp, fun h => h ▸ hcmp⟩

theorem equal_of_listing (ha : a ∈ S.words) (hb : b ∈ S.words) (h : g.listing a = g.listing b) :
    Equal g a b :=
  eql_of_listed S ha hb (listed_listing (S.plain a ha)) (h ▸ listed_listing (S.plain b hb))

theorem cmpLists_swap (l m : List (List ℤ)) : cmpLists m l = (cmpLists l m).swap :=
  Std.OrientedCmp.eq_swap

theorem isLE_iff {c : Ordering} : c.isLE = true ↔ c ≠ .gt := by
  cases c <;> decide

theorem then_listing {l m n : List (List ℤ)} (h : cmpLists l m ≠ .gt) (h' : cmpLists m n ≠ .gt) :
    cmpLists l n = (cmpLists l m).then (cmpLists m n) := by
  cases hlm : cmpLists l m with
  | gt => exact absurd hlm h
  | eq =>
      rw [Std.LawfulEqCmp.eq_of_compare hlm]
      rfl
  | lt =>
      cases hmn : cmpLists m n with
      | gt => exact absurd hmn h'
      | eq =>
          rw [← Std.LawfulEqCmp.eq_of_compare hmn, hlm]
          rfl
      | lt => exact Std.TransCmp.lt_trans hlm hmn

theorem sorted_listing (hapart : KindsApart g S.words) {l : List ℕ} (hl : ∀ x ∈ l, x ∈ S.words)
    (h : Sorted g l) : l.Pairwise fun a b => (cmpLists (g.listing a) (g.listing b)).isLE = true := by
  refine List.Pairwise.imp_of_mem ?_ h
  rintro a b ha hb ⟨c, hc, hle⟩
  rw [isLE_iff, ← (cmp_iff S hapart (hl a ha) (hl b hb)).mp hc]
  exact hle

theorem totalPreorder_of_apart (hapart : KindsApart g S.words) : TotalPreorder g S.words where
  answers a ha b hb := ⟨_, (cmp_iff S hapart ha hb).mpr rfl, fun c hc => (cmp_iff S hapart ha hb).mp hc⟩
  swap a ha b hb c h := by
    rw [cmp_iff S hapart ha hb] at h
    rw [cmp_iff S hapart hb ha, h]
    exact (cmpLists_swap _ _).symm
  trans a ha b hb d hd c c' h h' hc hc' := by
    rw [cmp_iff S hapart ha hb] at h
    rw [cmp_iff S hapart hb hd] at h'
    subst h h'
    rw [cmp_iff S hapart ha hd, then_listing hc hc']
  ties a ha b hb h := by
    rw [cmp_iff S hapart ha hb] at h
    exact equal_of_listing S ha hb (Std.LawfulEqCmp.eq_of_compare h.symm)
  sorted l m hl hperm hsl hsm := by
    have hm : ∀ x ∈ m, x ∈ S.words := fun x hx => hl x (hperm.mem_iff.mpr hx)
    have hkeys := Listing.forall₂_of_sorted g.listing hperm (sorted_listing S hapart hl hsl)
      (sorted_listing S hapart hm hsm)
    rw [List.forall₂_iff_zip] at hkeys ⊢
    refine ⟨hkeys.1, fun hab => ?_⟩
    obtain ⟨ha, hb⟩ := List.of_mem_zip hab
    exact equal_of_listing S (hl _ ha) (hm _ hb) (hkeys.2 hab)

/-! ## Kinds not apart -/

theorem fnHash_coin (ha : g.coinp a = true) (hla : CoinLaid g.toCore a) :
    ∃ h, g.fnHash a = .ok h := by
  obtain ⟨-, hap⟩ := coinp_iff.mp ha
  have hsteps : g.steps ≠ 0 := by
    intro h0
    have htag := hla.tag
    rw [Core.ttag, h0] at htag
    cases htag
  have hcarrier : g.fnCarrier a = true := by simp [Core.fnCarrier, hap]
  have hmeaning := fnMeaning_coin hap
  rw [if_neg hsteps] at hmeaning
  obtain ⟨n, hn⟩ := Nat.exists_eq_succ_of_ne_zero hsteps
  rw [Core.fnHash, hn, Core.fnHashD]
  simp only [hmeaning, ok_bind, hla.heap, hcarrier, hla.tag, Bool.not_true, Bool.false_eq_true,
    if_false, if_true]
  exact ⟨_, rfl⟩

theorem hash_of_fnHash {h : ℕ} (ha : g.coinp a = true) (hh : g.fnHash a = .ok h) (fuel room : ℕ) :
    g.hash fuel room a = .ok h := by
  obtain ⟨hc, hap⟩ := coinp_iff.mp ha
  have hchain : g.chainp a = false := by simp [Core.chainp, hap]
  rw [Core.hash, hc, hchain, if_neg (by decide), if_neg (by decide), Core.hashLeaf, hc,
    if_neg (by decide), dat_of_coin hap]
  simp only [hh, ok_bind]
  rfl

/-- Every two coins have one hash. -/
theorem hash_coin (ha : g.coinp a = true) (hb : g.coinp b = true) (hla : CoinLaid g.toCore a)
    (hlb : CoinLaid g.toCore b) :
    ∃ h, ∀ fuel room, g.hash fuel room a = .ok h ∧ g.hash fuel room b = .ok h := by
  obtain ⟨h, hh⟩ := fnHash_coin ha hla
  have hh' : g.fnHash b = .ok h := by
    rw [← hh]
    exact (fnHashD_coin (coinp_iff.mp ha).2 (coinp_iff.mp hb).2 hla hlb _ _).symm
  exact ⟨h, fun fuel room => ⟨hash_of_fnHash ha hh fuel room, hash_of_fnHash hb hh' fuel room⟩⟩

theorem Plain.laid (h : Plain g a) (ha : g.coinp a = true) : CoinLaid g.toCore a := by
  have hband := h.band
  rw [cmpRank_coin ha] at hband
  cases hband with
  | coin _ laid _ => exact laid

/-- Coins of two kinds whose serials do not tell them apart tie. -/
theorem cmp_eq_of_serials {fuel room sa sb : ℕ} (ha : g.coinp a = true) (hb : g.coinp b = true)
    (hla : CoinLaid g.toCore a) (hlb : CoinLaid g.toCore b) (hk : g.coinKind a ≠ g.coinKind b)
    (hsa : g.kindSerial fuel room a = .ok sa) (hsb : g.kindSerial fuel room b = .ok sb)
    (hs : ¬ (charmp sa = true ∧ charmp sb = true ∧ sa ≠ sb)) : Cmp g a b .eq := by
  obtain ⟨h, hh⟩ := hash_coin ha hb hla hlb
  have hra := cmpRank_coin ha
  have hguard : (charmp sa && charmp sb && sa != sb) = false := by
    rw [← Bool.not_eq_true]
    simpa [and_assoc] using hs
  refine ⟨fuel + 1, room, ?_⟩
  have hsa' := kindSerial_persists (le_refl room) (Nat.le_succ fuel) a sa hsa
  have hsb' := kindSerial_persists (le_refl room) (Nat.le_succ fuel) b sb hsb
  have hleaf : g.cmp3leaf (fuel + 1) room a b = .ok (.settled .eq) := by
    rw [cmp3leaf_same hra (cmpRank_coin hb), not_nomp_of_rank hra (by decide), if_neg (by decide),
      if_neg (by decide), not_strp_of_rank hra (by decide), if_neg (by decide),
      not_chainp_of_rank hra (by decide), if_neg (by decide), ha, hb, Bool.and_self, if_pos rfl,
      if_neg hk, cmpKinds, hsa', hsb']
    simp only [ok_bind, hguard, Bool.false_eq_true, if_false, cmpHash, (hh _ _).1, (hh _ _).2]
    rw [compare_eq_iff_eq.mpr rfl]
    rfl
  exact cmp3w_settled (w := []) hleaf

theorem not_equal_of_kinds (ha : g.coinp a = true) (hb : g.coinp b = true)
    (hk : g.coinKind a ≠ g.coinKind b) : ¬ Equal g a b := by
  rintro ⟨fuel, room, h⟩
  have hab : a ≠ b := fun h => hk (by rw [h])
  have hra := cmpRank_coin ha
  have hleaf : g.eqvLeaf a b = .no := by
    have : ¬ g.cell a 1 = g.cell b 1 := hk
    simp [Core.eqvLeaf, hab, ha, hb, this]
  rw [Core.eql, if_neg hab, (coinp_iff.mp ha).1, not_nomp_of_rank hra (by decide), Core.eqv, hleaf] at h
  cases h

theorem apart_of_totalPreorder (h : TotalPreorder g S.words) : KindsApart g S.words := by
  intro a hax b hbx ha hb hk
  obtain ⟨fuel, room, sa, hsa⟩ := S.serials a hax ha
  obtain ⟨fuel', room', sb, hsb⟩ := S.serials b hbx hb
  have hsa' := kindSerial_persists (le_max_left room room') (le_max_left fuel fuel') a sa hsa
  have hsb' := kindSerial_persists (le_max_right room room') (le_max_right fuel fuel') b sb hsb
  refine ⟨_, _, sa, sb, hsa', hsb', ?_⟩
  by_contra hs
  have htie := cmp_eq_of_serials ha hb ((S.plain a hax).laid ha) ((S.plain b hbx).laid hb) hk hsa' hsb' hs
  exact not_equal_of_kinds ha hb hk (h.ties a hax b hbx htie)

/-- The order is a total preorder, equal where it ties, exactly when no two kinds share a
serial. -/
theorem totalPreorder_iff (g : KindCore) (S : Stock g) :
    TotalPreorder g S.words ↔ KindsApart g S.words :=
  ⟨apart_of_totalPreorder S, totalPreorder_of_apart S⟩

/-! ## A kind registered twice -/

/-- The words of `renamed` that are not gaps: the noms `name` and `a`, two tables of a kind
named `a`, the registry, which keeps the first one's serial for the second, and three coins. -/
def renamedWords : List (ℕ × ℕ) :=
  [(64, 8), (72, 0), (80, 0), (96, 8), (104, 0), (112, 1),
   (128, 40), (136, 160), (144, 3), (160, 48), (168, 3), (176, 9), (184, 64), (192, 96),
   (256, 40), (264, 288), (272, 5), (288, 48), (296, 3), (304, 9), (312, 64), (320, 96),
   (384, 40), (392, 416), (400, 7), (416, 48), (424, 3), (432, 9), (456, 96), (464, 512),
   (512, 24), (520, 1), (528, 256),
   (544, 32), (552, 128), (560, 3), (568, 546),
   (576, 32), (584, 128), (592, 5), (600, 578),
   (608, 32), (616, 256), (624, 3), (632, 610)]

/-- `(coin 'a ())` twice: two coins of the first kind, at 544 over 1 and at 576 over 2, and one
of the second, at 608. -/
def renamed : KindCore where
  arch := .w64
  limbBytes := 8
  mem p := ((renamedWords.lookup p).getD 56) % 2 ^ 64
  op x := if x = 8 then .data .nom else if x = 24 then .data .chain else if x = 32 then .coin
    else if x = 40 then .mapLookup else if x = 48 then .mapData else .other
  main := (64, 640)
  major := (640, 640)
  survivors := (640, 640)
  codeIn _ := false
  oopKey x := x
  steps := 8
  words p := Nat.mod_lt _ (Nat.two_pow_pos _)
  arena := by simp
  limbs := .w64l64
  mapGap := 56
  zeroPoint := 0
  knName := 64
  kreg := 384
  floCmp _ _ := .eq
  bits_eq := rfl
  limb_eq := rfl

theorem renamed_laid {x : ℕ} (hx : x ∈ [544, 576, 608]) : CoinLaid renamed.toCore x := by
  simp only [List.mem_cons, List.not_mem_nil, or_false] at hx
  rcases hx with rfl | rfl | rfl
  · exact ⟨rfl, by decide⟩
  · exact ⟨rfl, by decide⟩
  · exact ⟨rfl, by decide⟩

def renamedStock : Stock renamed where
  words := {x | x ∈ [3, 5, 544, 576, 608]}
  plain x hx := by
    have hone : Plain renamed 3 := .charm rfl (by decide)
    have htwo : Plain renamed 5 := .charm rfl (by decide)
    simp only [Set.mem_ofPred_eq, List.mem_cons, List.not_mem_nil, or_false] at hx
    rcases hx with rfl | rfl | rfl | rfl | rfl
    · exact hone
    · exact htwo
    · exact .coin rfl (renamed_laid (by simp)) hone
    · exact .coin rfl (renamed_laid (by simp)) htwo
    · exact .coin rfl (renamed_laid (by simp)) hone
  car := by simp only [Set.mem_ofPred_eq]; with_unfolding_all decide
  cdr := by simp only [Set.mem_ofPred_eq]; with_unfolding_all decide
  load := by simp only [Set.mem_ofPred_eq]; with_unfolding_all decide
  mints := by simp only [Set.mem_ofPred_eq]; with_unfolding_all decide
  noms := by simp only [Set.mem_ofPred_eq]; with_unfolding_all decide
  tablets := by simp only [Set.mem_ofPred_eq]; with_unfolding_all decide
  serials x hx _ := ⟨8, 8, 1, by
    simp only [Set.mem_ofPred_eq, List.mem_cons, List.not_mem_nil, or_false] at hx
    rcases hx with rfl | rfl | rfl | rfl | rfl <;> with_unfolding_all decide⟩

set_option maxRecDepth 4000 in
/-- The second kind's coin ties with both of the first's, of which one is the less. -/
theorem not_totalPreorder : ¬ ∀ (g : KindCore) (S : Stock g), TotalPreorder g S.words := by
  intro h
  have hord := h renamed renamedStock
  have hleft : Cmp renamed 544 608 .eq := ⟨8, 8, by with_unfolding_all decide⟩
  have hright : Cmp renamed 608 576 .eq := ⟨8, 8, by with_unfolding_all decide⟩
  have hless : Cmp renamed 544 576 .lt := ⟨8, 8, by with_unfolding_all decide⟩
  have htie := hord.trans 544 (by simp [renamedStock]) 608 (by simp [renamedStock]) 576
    (by simp [renamedStock]) .eq .eq hleft hright (by decide) (by decide)
  cases hless.unique htie

end KindCore

end LoveRuntime
