import LoveRuntime.Verification.Order.Leaf

/-! The walk compares two values as their heads do, listed from the left: provided that the
kinds of the coins among them have serials of their own. -/

namespace LoveRuntime

open Outcome Listing

namespace KindCore

/-- Plain values with all their parts. No two mints share a serial, no two noms a spelling, no
two tablets a serial, and the registry answers what it is asked of a kind. -/
structure Stock (g : KindCore) where
  words : Set ℕ
  plain : ∀ x ∈ words, Plain g x
  car : ∀ x ∈ words, g.chainp x = true → g.cell x 1 ∈ words
  cdr : ∀ x ∈ words, g.chainp x = true → g.cell x 2 ∈ words
  load : ∀ x ∈ words, g.coinp x = true → g.coinLoad x ∈ words
  mints : ∀ x ∈ words, ∀ y ∈ words, g.nomp x = true → g.nomp y = true → g.namep x = false →
    g.namep y = false → g.cell x 1 = g.cell y 1 → x = y
  noms : ∀ x ∈ words, ∀ y ∈ words, g.namep x = true → g.namep y = true →
    g.txt (g.cell x 1) = g.txt (g.cell y 1) → x = y
  tablets : ∀ x ∈ words, ∀ y ∈ words, g.tabp x = true → g.tabp y = true →
    g.mapSerial x = g.mapSerial y → x = y
  serials : ∀ x ∈ words, g.coinp x = true → ∃ fuel room s, g.kindSerial fuel room x = .ok s

/-- The serials of two kinds are told apart. -/
def KindsApart (g : KindCore) (S : Set ℕ) : Prop :=
  ∀ a ∈ S, ∀ b ∈ S, g.coinp a = true → g.coinp b = true → g.coinKind a ≠ g.coinKind b →
    ∃ fuel room sa sb, g.kindSerial fuel room a = .ok sa ∧ g.kindSerial fuel room b = .ok sb ∧
      charmp sa = true ∧ charmp sb = true ∧ sa ≠ sb

variable {g : KindCore} {a b x y : ℕ} (S : Stock g) (hapart : KindsApart g S.words)

/-! ## One step -/

/-- What the walk does with two values, by their heads. -/
noncomputable def cmpStep (g : KindCore) (a b : ℕ) : CmpStep :=
  if g.head a = g.head b then
    if g.chainp a then .chain else if g.coinp a then .coin else .settled .eq
  else .settled (List.compareLex compare (g.head a) (g.head b))

theorem cmpStep_leaf (hr : g.cmpRank a = g.cmpRank b) (hchain : g.chainp a = false)
    (hcoin : g.coinp a = false) :
    g.cmpStep a b = .settled (List.compareLex compare (g.order a) (g.order b)) := by
  have hhead : List.compareLex compare (g.head a) (g.head b) =
      List.compareLex compare (g.order a) (g.order b) := by
    rw [head, head, hr, compareLex_same]
  rw [cmpStep, hhead, hchain, hcoin]
  split
  · rename_i h
    rw [← hhead, h, compareLex_self]
    rfl
  · rfl

theorem kindSerial_word {fuel room s : ℕ} (h : g.kindSerial fuel room x = .ok s) :
    s < 2 ^ g.arch.bits := by
  obtain ⟨name, -, h⟩ := ok_of_bind h
  obtain ⟨e, -, h⟩ := ok_of_bind h
  cases h
  split
  · exact g.words _
  · have := two_pow_bits g.arch
    have := Nat.two_pow_pos (g.arch.bits - 2)
    rw [zeroCharm]
    omega

theorem not_chainp_of_rank {r : ℕ} (hr : g.cmpRank x = r) (h : r ≠ 4) : g.chainp x = false := by
  by_contra hx
  rw [Bool.not_eq_false] at hx
  exact h (hr.symm.trans (cmpRank_chain hx))

theorem not_coinp_of_rank {r : ℕ} (hr : g.cmpRank x = r) (h : r ≠ 6) : g.coinp x = false := by
  by_contra hx
  rw [Bool.not_eq_false] at hx
  exact h (hr.symm.trans (cmpRank_coin hx))

theorem not_nomp_of_rank {r : ℕ} (hr : g.cmpRank x = r) (h : r ≠ 0) : g.nomp x = false := by
  by_contra hx
  rw [Bool.not_eq_false] at hx
  exact h (hr.symm.trans (cmpRank_point hx))

theorem not_strp_of_rank {r : ℕ} (hr : g.cmpRank x = r) (h : r ≠ 1) : g.strp x = false := by
  by_contra hx
  rw [Bool.not_eq_false] at hx
  exact h (hr.symm.trans (cmpRank_string hx))

/-- Past the ranks. -/
theorem cmp3leaf_same {r : ℕ} (ha : g.cmpRank a = r) (hb : g.cmpRank b = r) (fuel room : ℕ) :
    g.cmp3leaf fuel room a b =
      if g.nomp a then .ok (.settled (g.mintCmp a b))
      else if r = 2 then
        if (charmp a || g.bigp a) && (charmp b || g.bigp b) then .ok (.settled (g.bigCmp a b))
        else .ok (.settled (g.floCmp a b))
      else if g.strp a then .ok (.settled (bytesCmp (g.txt a) (g.txt b)))
      else if g.chainp a then .ok .chain
      else if g.coinp a && g.coinp b then
        if g.coinKind a = g.coinKind b then .ok .coin else g.cmpKinds fuel room a b
      else if g.tabp a && g.tabp b then .ok (.settled (compare (g.mapSerial a) (g.mapSerial b)))
      else g.cmpHash fuel room a b := by
  rw [cmp3leaf, ha, hb, if_neg (by simp)]

theorem cmpStep_ranks (hr : g.cmpRank a ≠ g.cmpRank b) (fuel room : ℕ) :
    g.cmp3leaf fuel room a b = .ok (g.cmpStep a b) := by
  have hhead : g.head a ≠ g.head b := by
    intro h
    exact hr (by exact_mod_cast (List.cons.inj h).1)
  rw [cmp3leaf, if_pos hr, cmpStep, if_neg hhead, head, head, List.compareLex_cons_cons]
  rcases Nat.lt_or_gt_of_ne hr with h | h
  · rw [if_pos h, compare_lt_iff_lt.mpr (by exact_mod_cast h)]
    rfl
  · rw [if_neg (by omega), compare_gt_iff_gt.mpr (by exact_mod_cast h)]
    rfl

include hapart in
/-- Two coins of two kinds. -/
theorem cmpKinds_eq (hax : a ∈ S.words) (hbx : b ∈ S.words) (ha : g.coinp a = true)
    (hb : g.coinp b = true) (hk : g.coinKind a ≠ g.coinKind b) :
    ∃ need, ∀ fuel, need ≤ fuel → ∀ room, need ≤ room →
      g.cmpKinds fuel room a b = .ok (g.cmpStep a b) := by
  obtain ⟨fuel, room, sa, sb, hsa, hsb, hca, hcb, hne⟩ := hapart a hax b hbx ha hb hk
  refine ⟨max fuel room, fun fuel' hfuel room' hroom => ?_⟩
  have hrk : g.cmpRank a = g.cmpRank b := (cmpRank_coin ha).trans (cmpRank_coin hb).symm
  have hsa' := kindSerial_persists (le_trans (le_max_right _ _) hroom)
    (le_trans (le_max_left _ _) hfuel) a sa hsa
  have hsb' := kindSerial_persists (le_trans (le_max_right _ _) hroom)
    (le_trans (le_max_left _ _) hfuel) b sb hsb
  have hchar : g.arch.getcharm sa ≠ g.arch.getcharm sb := fun h =>
    hne (getcharm_inj hca hcb (kindSerial_word hsa) (kindSerial_word hsb) h)
  have hhead : g.head a ≠ g.head b := by
    rw [head, head, order_coin ha, order_coin hb, serial_eq hsa, serial_eq hsb]
    intro h
    simp [hchar] at h
  rw [cmpStep, if_neg hhead, head, head, hrk, compareLex_same, order_coin ha, order_coin hb,
    serial_eq hsa, serial_eq hsb, cmpKinds, hsa', hsb']
  have hguard : (charmp sa && charmp sb && sa != sb) = true := by simp [hca, hcb, hne]
  simp only [ok_bind, hguard, if_true, List.compareLex_cons_cons]
  rcases lt_or_gt_of_ne hchar with h | h
  · rw [if_pos h, compare_lt_iff_lt.mpr h]
    rfl
  · rw [if_neg (lt_asymm h), compare_gt_iff_gt.mpr h]
    rfl

include hapart in
theorem cmp3leaf_eq (hax : a ∈ S.words) (hbx : b ∈ S.words) :
    ∃ need, ∀ fuel, need ≤ fuel → ∀ room, need ≤ room →
      g.cmp3leaf fuel room a b = .ok (g.cmpStep a b) := by
  by_cases hr : g.cmpRank a = g.cmpRank b
  · have ha := (S.plain a hax).band
    have hb := (S.plain b hbx).band
    generalize hra : g.cmpRank a = r at *
    rw [← hr] at hb
    have hrb := hr.symm
    have hrk := hra.trans hr
    cases ha with
    | point hx =>
        cases hb with
        | point hy =>
            refine ⟨0, fun fuel _ room _ => ?_⟩
            rw [cmp3leaf_same hra hrb, if_pos hx, mintCmp_eq hx hy,
              cmpStep_leaf hrk (not_chainp_of_rank hra (by decide)) (not_coinp_of_rank hra (by decide))]
    | string hx =>
        cases hb with
        | string hy =>
            refine ⟨0, fun fuel _ room _ => ?_⟩
            rw [cmp3leaf_same hra hrb, not_nomp_of_rank hra (by decide), if_neg (by decide),
              if_neg (by decide), if_pos hx, bytesCmp_eq,
              cmpStep_leaf hrk (not_chainp_of_rank hra (by decide)) (not_coinp_of_rank hra (by decide)),
              order_string hx, order_string hy, compareLex_cast]
    | number hx hcanon _ =>
        cases hb with
        | number hy hcanon' _ =>
            refine ⟨0, fun fuel _ room _ => ?_⟩
            rw [cmp3leaf_same hra hrb, not_nomp_of_rank hra (by decide), if_neg (by decide),
              if_pos rfl, hx, hy, Bool.and_self, if_pos rfl, bigCmp_eq hcanon hcanon',
              cmpStep_leaf hrk (not_chainp_of_rank hra (by decide)) (not_coinp_of_rank hra (by decide)),
              order_number hx, order_number hy, compareLex_single]
    | chain hx car cdr =>
        cases hb with
        | chain hy car' cdr' =>
            refine ⟨0, fun fuel _ room _ => ?_⟩
            rw [cmp3leaf_same hra hrb, not_nomp_of_rank hra (by decide), if_neg (by decide),
              if_neg (by decide), not_strp_of_rank hra (by decide), if_neg (by decide), if_pos hx,
              cmpStep, head, head, hrk, order_chain hx, order_chain hy, if_pos rfl, if_pos hx]
    | tablet hx =>
        cases hb with
        | tablet hy =>
            refine ⟨0, fun fuel _ room _ => ?_⟩
            have hcoin := not_coinp_of_rank hra (by decide)
            rw [cmp3leaf_same hra hrb, not_nomp_of_rank hra (by decide), if_neg (by decide),
              if_neg (by decide), not_strp_of_rank hra (by decide), if_neg (by decide),
              not_chainp_of_rank hra (by decide), if_neg (by decide), hcoin, Bool.false_and,
              if_neg (by decide), hx, hy, Bool.and_self, if_pos rfl,
              cmpStep_leaf hrk (not_chainp_of_rank hra (by decide)) hcoin,
              order_tablet hx, order_tablet hy, compareLex_single]
            exact congrArg _ (congrArg _ (compare_signed_pos _ _).symm)
    | coin hx laid load =>
        cases hb with
        | coin hy laid' load' =>
            have hsame : ∀ fuel room, g.cmp3leaf fuel room a b =
                if g.coinKind a = g.coinKind b then .ok .coin else g.cmpKinds fuel room a b := by
              intro fuel room
              rw [cmp3leaf_same hra hrb, not_nomp_of_rank hra (by decide), if_neg (by decide),
                if_neg (by decide), not_strp_of_rank hra (by decide), if_neg (by decide),
                not_chainp_of_rank hra (by decide), if_neg (by decide), hx, hy, Bool.and_self, if_pos rfl]
            by_cases hk : g.coinKind a = g.coinKind b
            · refine ⟨0, fun fuel _ room _ => ?_⟩
              have hhead : g.head a = g.head b := by
                rw [head, head, hrk, order_coin hx, order_coin hy, serial_congr hk, hk]
              rw [hsame, if_pos hk, cmpStep, if_pos hhead, not_chainp_of_rank hra (by decide),
                if_neg (by decide), if_pos hx]
            · obtain ⟨need, hneed⟩ := cmpKinds_eq S hapart hax hbx hx hy hk
              refine ⟨need, fun fuel hfuel room hroom => ?_⟩
              rw [hsame, if_neg hk, hneed fuel hfuel room hroom]
  · exact ⟨0, fun fuel _ room _ => cmpStep_ranks hr fuel room⟩

/-! ## The walk -/

/-- The heads of a value and of its parts, from the left. -/
inductive Listed (g : KindCore) : ℕ → List (List ℤ) → Prop where
  | leaf {x : ℕ} (hx : arity (g.head x) = 0) : Listed g x [g.head x]
  | chain {x : ℕ} {l m : List (List ℤ)} (hx : g.chainp x = true) (car : Listed g (g.cell x 1) l)
      (cdr : Listed g (g.cell x 2) m) : Listed g x (g.head x :: (l ++ m))
  | coin {x : ℕ} {l : List (List ℤ)} (hx : g.coinp x = true) (load : Listed g (g.coinLoad x) l) :
      Listed g x (g.head x :: l)

theorem arity_chain (hx : g.chainp x = true) : arity (g.head x) = 2 := by
  rw [head, cmpRank_chain hx]
  rfl

theorem arity_coin (hx : g.coinp x = true) : arity (g.head x) = 1 := by
  rw [head, cmpRank_coin hx]
  rfl

theorem cmpRank_of_head (h : g.head a = g.head b) : g.cmpRank a = g.cmpRank b := by
  exact_mod_cast (List.cons.inj h).1

theorem chainp_of_head (hb : Plain g b) (ha : g.chainp a = true) (h : g.head a = g.head b) :
    g.chainp b = true := by
  have hband := hb.band
  rw [← cmpRank_of_head h, cmpRank_chain ha] at hband
  cases hband with
  | chain hx _ _ => exact hx

theorem coinp_of_head (hb : Plain g b) (ha : g.coinp a = true) (h : g.head a = g.head b) :
    g.coinp b = true := by
  have hband := hb.band
  rw [← cmpRank_of_head h, cmpRank_coin ha] at hband
  cases hband with
  | coin hx _ _ => exact hx

theorem Plain.listed (h : Plain g x) : ∃ l, Listed g x l := by
  induction h with
  | charm hx _ => exact ⟨_, .leaf (by rw [head, cmpRank_charm hx]; rfl)⟩
  | big hx _ => exact ⟨_, .leaf (by rw [head, cmpRank_big hx]; rfl)⟩
  | string hx => exact ⟨_, .leaf (by rw [head, cmpRank_string hx]; rfl)⟩
  | point hx => exact ⟨_, .leaf (by rw [head, cmpRank_point hx]; rfl)⟩
  | tablet hx => exact ⟨_, .leaf (by rw [head, cmpRank_tablet hx]; rfl)⟩
  | chain hx _ _ car cdr =>
      obtain ⟨l, hl⟩ := car
      obtain ⟨m, hm⟩ := cdr
      exact ⟨_, .chain hx hl hm⟩
  | coin hx _ _ load =>
      obtain ⟨l, hl⟩ := load
      exact ⟨_, .coin hx hl⟩

/-- Two listings, head by head. -/
def cmpLists (l m : List (List ℤ)) : Ordering := List.compareLex (List.compareLex compare) l m

instance : Std.TransCmp cmpLists :=
  inferInstanceAs (Std.TransCmp (List.compareLex (List.compareLex compare)))

instance : Std.LawfulEqCmp cmpLists :=
  inferInstanceAs (Std.LawfulEqCmp (List.compareLex (List.compareLex compare)))

theorem cmpLists_self (l : List (List ℤ)) : cmpLists l l = .eq := Std.ReflCmp.compare_self

theorem cmpLists_cons (h h' : List ℤ) (l m : List (List ℤ)) :
    cmpLists (h :: l) (h' :: m) = (List.compareLex compare h h').then (cmpLists l m) :=
  List.compareLex_cons_cons

theorem cmpLists_same (h : List ℤ) (l m : List (List ℤ)) :
    cmpLists (h :: l) (h :: m) = cmpLists l m := by
  rw [cmpLists_cons, compareLex_self, Ordering.eq_then]

theorem cmpLists_append {n : ℕ} {l l' m m' : List (List ℤ)} (hl : Lists arity n l)
    (hm : Lists arity n m) : cmpLists (l ++ l') (m ++ m') = (cmpLists l m).then (cmpLists l' m') :=
  compareLex_append hl hm

namespace Listed

variable {l m : List (List ℤ)}

theorem lists (h : Listed g x l) : Lists arity 1 l := by
  induction h with
  | leaf hx => exact .cons (by rw [hx]; exact .nil)
  | chain hx _ _ car cdr => exact .cons (by rw [arity_chain hx]; exact car.append cdr)
  | coin hx _ load => exact .cons (by rw [arity_coin hx]; exact load)

theorem cons (h : Listed g x l) : ∃ t, l = g.head x :: t := by
  cases h with
  | leaf _ => exact ⟨_, rfl⟩
  | chain _ _ _ => exact ⟨_, rfl⟩
  | coin _ _ => exact ⟨_, rfl⟩

theorem of_chain (hx : g.chainp x = true) (h : Listed g x l) :
    ∃ l₁ l₂, l = g.head x :: (l₁ ++ l₂) ∧ Listed g (g.cell x 1) l₁ ∧ Listed g (g.cell x 2) l₂ := by
  cases h with
  | leaf h => exact absurd ((arity_chain hx).symm.trans h) (by decide)
  | chain _ car cdr => exact ⟨_, _, rfl, car, cdr⟩
  | coin hc _ => exact absurd ((arity_chain hx).symm.trans (arity_coin hc)) (by decide)

theorem of_coin (hx : g.coinp x = true) (h : Listed g x l) :
    ∃ m, l = g.head x :: m ∧ Listed g (g.coinLoad x) m := by
  cases h with
  | leaf h => exact absurd ((arity_coin hx).symm.trans h) (by decide)
  | chain hc _ _ => exact absurd ((arity_coin hx).symm.trans (arity_chain hc)) (by decide)
  | coin _ load => exact ⟨_, rfl, load⟩

theorem unique (h : Listed g x l) (h' : Listed g x m) : l = m := by
  induction h generalizing m with
  | leaf hx =>
      cases h' with
      | leaf _ => rfl
      | chain hc _ _ => exact absurd ((arity_chain hc).symm.trans hx) (by decide)
      | coin hc _ => exact absurd ((arity_coin hc).symm.trans hx) (by decide)
  | chain hx _ _ car cdr =>
      obtain ⟨m₁, m₂, rfl, hcar, hcdr⟩ := h'.of_chain hx
      rw [car hcar, cdr hcdr]
  | coin hx _ load =>
      obtain ⟨m, rfl, hload⟩ := h'.of_coin hx
      rw [load hload]

/-- Heads that differ settle it. -/
theorem compare_of_head_ne (ha : Listed g a l) (hb : Listed g b m) (h : g.head a ≠ g.head b) :
    List.compareLex compare (g.head a) (g.head b) ≠ .eq ∧
      cmpLists l m = List.compareLex compare (g.head a) (g.head b) := by
  obtain ⟨t, rfl⟩ := ha.cons
  obtain ⟨u, rfl⟩ := hb.cons
  have hne : List.compareLex compare (g.head a) (g.head b) ≠ .eq := fun heq =>
    h (Std.LawfulEqCmp.eq_of_compare heq)
  refine ⟨hne, ?_⟩
  rw [cmpLists_cons]
  cases hc : List.compareLex compare (g.head a) (g.head b) with
  | lt => rfl
  | gt => rfl
  | eq => exact absurd hc hne

end Listed

/-- What the walk does after a pair. -/
def walkOn (g : KindCore) (fuel room n : ℕ) (c : Ordering) (w : List (ℕ × ℕ)) :
    Except Halt Ordering :=
  if c ≠ .eq then .ok c
  else match w with
    | [] => .ok c
    | (a, b) :: w => g.cmp3w fuel room n a b w

theorem cmp3w_settled {fuel room n : ℕ} {w : List (ℕ × ℕ)} {c : Ordering}
    (h : g.cmp3leaf fuel (room - 2 * w.length) a b = .ok (.settled c)) :
    g.cmp3w fuel room (n + 1) a b w = g.walkOn fuel room n c w := by
  rw [cmp3w, h]
  cases w <;> rfl

/-- A walk in room enough goes past two values as their listings compare. -/
def Walks (g : KindCore) (a b : ℕ) (c : Ordering) : Prop :=
  ∃ n need, ∀ fuel, need ≤ fuel → ∀ room w, need ≤ room - 2 * w.length → ∀ k,
    g.cmp3w fuel room (n + k) a b w = g.walkOn fuel room k c w

include hapart in
theorem walks_head_ne {l m : List (List ℤ)} (hax : a ∈ S.words) (hbx : b ∈ S.words)
    (hla : Listed g a l) (hlb : Listed g b m) (h : g.head a ≠ g.head b) :
    Walks g a b (cmpLists l m) := by
  obtain ⟨need, hleaf⟩ := cmp3leaf_eq S hapart hax hbx
  refine ⟨1, need, fun fuel hfuel room w hroom k => ?_⟩
  have hstep := hleaf fuel hfuel _ hroom
  rw [cmpStep, if_neg h] at hstep
  rw [(hla.compare_of_head_ne hlb h).2, Nat.add_comm 1 k, cmp3w_settled hstep]

include hapart in
theorem walks_listed {l m : List (List ℤ)} (hax : a ∈ S.words) (hbx : b ∈ S.words)
    (hla : Listed g a l) (hlb : Listed g b m) :
    Walks g a b (cmpLists l m) := by
  induction hla generalizing b m with
  | @leaf a ha =>
      by_cases hhead : g.head a = g.head b
      · obtain ⟨need, hleaf⟩ := cmp3leaf_eq S hapart hax hbx
        refine ⟨1, need, fun fuel hfuel room w hroom k => ?_⟩
        have hchain : g.chainp a = false := by
          by_contra hc
          rw [Bool.not_eq_false] at hc
          simp [arity_chain hc] at ha
        have hcoin : g.coinp a = false := by
          by_contra hc
          rw [Bool.not_eq_false] at hc
          simp [arity_coin hc] at ha
        have hstep := hleaf fuel hfuel _ hroom
        rw [cmpStep, if_pos hhead, hchain, hcoin] at hstep
        have hm : m = [g.head a] := by
          rw [hhead] at ha ⊢
          exact hlb.unique (.leaf ha)
        rw [Nat.add_comm 1 k, cmp3w_settled hstep, hm, cmpLists_self]
      · exact walks_head_ne S hapart hax hbx (.leaf ha) hlb hhead
  | @chain a l₁ l₂ ha hcar hcdr ihcar ihcdr =>
      by_cases hhead : g.head a = g.head b
      · have hb := chainp_of_head (S.plain b hbx) ha hhead
        obtain ⟨m₁, m₂, rfl, hcar', hcdr'⟩ := hlb.of_chain hb
        obtain ⟨need, hleaf⟩ := cmp3leaf_eq S hapart hax hbx
        obtain ⟨n₁, need₁, h₁⟩ := ihcar (S.car a hax ha) (S.car b hbx hb) hcar'
        obtain ⟨n₂, need₂, h₂⟩ := ihcdr (S.cdr a hax ha) (S.cdr b hbx hb) hcdr'
        refine ⟨n₁ + n₂ + 1, need + need₁ + need₂ + 2, fun fuel hfuel room w hroom k => ?_⟩
        have hstep := hleaf fuel (by omega) (room - 2 * w.length) (by omega)
        rw [cmpStep, if_pos hhead, if_pos ha] at hstep
        rw [show n₁ + n₂ + 1 + k = (n₁ + (n₂ + k)) + 1 by omega, cmp3w, hstep, ok_bind]
        simp only []
        rw [if_neg (by omega), h₁ fuel (by omega) room _ (by rw [List.length_cons]; omega),
          hhead, cmpLists_same, cmpLists_append hcar.lists hcar'.lists]
        cases cmpLists l₁ m₁ with
        | lt => rfl
        | gt => rfl
        | eq => exact h₂ fuel (by omega) room w (by omega) k
      · exact walks_head_ne S hapart hax hbx (.chain ha hcar hcdr) hlb hhead
  | @coin a l ha hload ih =>
      by_cases hhead : g.head a = g.head b
      · have hb := coinp_of_head (S.plain b hbx) ha hhead
        obtain ⟨m, rfl, hload'⟩ := hlb.of_coin hb
        obtain ⟨need, hleaf⟩ := cmp3leaf_eq S hapart hax hbx
        obtain ⟨n₁, need₁, h₁⟩ := ih (S.load a hax ha) (S.load b hbx hb) hload'
        refine ⟨n₁ + 1, need + need₁, fun fuel hfuel room w hroom k => ?_⟩
        have hstep := hleaf fuel (by omega) (room - 2 * w.length) (by omega)
        have hchain := not_chainp_of_rank (cmpRank_coin ha) (by decide)
        rw [cmpStep, if_pos hhead, hchain, if_neg (by decide), if_pos ha] at hstep
        rw [show n₁ + 1 + k = (n₁ + k) + 1 by omega, cmp3w, hstep, ok_bind]
        simp only []
        rw [h₁ fuel (by omega) room w (by omega), hhead, cmpLists_same]
      · exact walks_head_ne S hapart hax hbx (.coin ha hload) hlb hhead

end KindCore

end LoveRuntime
