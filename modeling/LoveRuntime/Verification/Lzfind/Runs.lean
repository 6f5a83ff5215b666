import LoveRuntime.Verification.Lzfind.Walk

/-! One call of `lzf_bt`: the trees stay in order over what later calls compare, so long as a node
that the new root takes the sides of agrees with it that far. -/

namespace LoveRuntime.Lzfind

open PrefixOrder SplitTree

/-- The tree of a bucket, in order over each of `cuts` bytes. -/
structure Rooted (f : Lzf) (P : ℕ) (seen cuts : List ℕ) (b : ℕ) (T : BinaryTree ℕ) : Prop where
  holds : Holds f.reach f.wmask P f.son (f.h4 b) T
  nodup : (toList T).Nodup
  ordered : ∀ k ∈ cuts, Ordered (Under f.s k) T
  mem : ∀ x ∈ toList T, x ∈ seen ∧ lzfH4 f.s x f.h4bits = b

/-- What holds between calls: `P` is past every position indexed, `seen` are those, and `cuts` are how
far the calls to come compare. -/
structure Indexed (f : Lzf) (P : ℕ) (seen cuts : List ℕ) : Prop where
  fits : f.Fits
  h2_le : ∀ i, f.h2 i ≤ P
  h3_le : ∀ i, f.h3 i ≤ P
  tree : ∀ b, ∃ T, Rooted f P seen cuts b T

theorem Rooted.advance {f : Lzf} {P P' b : ℕ} {seen seen' cuts cuts' : List ℕ} {T : BinaryTree ℕ}
    (h : Rooted f P seen cuts b T) (hP : P ≤ P') (hseen : seen ⊆ seen') (hcuts : cuts' ⊆ cuts) :
    Rooted f P' seen' cuts' b (prune (fun q => decide (q + f.reach < P')) T) := by
  have hsub := toList_prune (fun q => decide (q + f.reach < P')) T
  refine ⟨h.holds.prune hP, h.nodup.sublist hsub, fun k hk => (h.ordered k (hcuts hk)).prune _, fun x hx => ?_⟩
  obtain ⟨hx', hb⟩ := h.mem x (hsub.subset hx)
  exact ⟨hseen hx', hb⟩

theorem Indexed.advance {f : Lzf} {P P' : ℕ} {seen seen' cuts cuts' : List ℕ} (h : Indexed f P seen cuts)
    (hP : P ≤ P') (hseen : seen ⊆ seen') (hcuts : cuts' ⊆ cuts) : Indexed f P' seen' cuts' := by
  refine ⟨h.fits, fun i => (h.h2_le i).trans hP, fun i => (h.h3_le i).trans hP, fun b => ?_⟩
  obtain ⟨T, hT⟩ := h.tree b
  exact ⟨_, hT.advance hP hseen hcuts⟩

theorem entry_le (p : ℕ) : entry p ≤ p + 1 := Nat.mod_le _ _

/-! ### The heads -/

theorem Indexed.index2 {f : Lzf} {p : ℕ} {seen cuts : List ℕ} (h : Indexed f (p + 1) seen cuts) :
    Indexed (f.index2 p) (p + 1) seen cuts := by
  refine ⟨⟨h.fits.mask⟩, fun i => ?_, h.h3_le, fun b => ?_⟩
  · simp only [Lzf.index2, Function.update_apply]
    split
    · exact entry_le p
    · exact h.h2_le i
  · obtain ⟨T, hT⟩ := h.tree b
    exact ⟨T, ⟨hT.holds, hT.nodup, hT.ordered, hT.mem⟩⟩

theorem Indexed.index3 {f : Lzf} {p : ℕ} {seen cuts : List ℕ} (h : Indexed f (p + 1) seen cuts) :
    Indexed (f.index3 p) (p + 1) seen cuts := by
  refine ⟨⟨h.fits.mask⟩, h.h2_le, fun i => ?_, fun b => ?_⟩
  · simp only [Lzf.index3, Function.update_apply]
    split
    · exact entry_le p
    · exact h.h3_le i
  · obtain ⟨T, hT⟩ := h.tree b
    exact ⟨T, ⟨hT.holds, hT.nodup, hT.ordered, hT.mem⟩⟩

theorem near2_matches {f : Lzf} {p : ℕ} (lim : ℕ) (want : Bool) (hle : ∀ i, f.h2 i ≤ p)
    (hroom : p + lim ≤ f.s.length) :
    Matches f.s f.reach p (f.near2 p lim want).1 (f.near2 p lim want).2 ∧ (f.near2 p lim want).1 ≤ 2 := by
  have hc := hle (h2At f.s p)
  rw [Lzf.near2]
  generalize f.h2 (h2At f.s p) = c at hc
  split
  next h =>
    obtain ⟨-, hc0, hreach, hlim, hbyte, hbyte'⟩ := h
    refine ⟨⟨List.pairwise_singleton _ _, ?_, ?_⟩, Nat.le_refl 2⟩
    · intro m hm
      rw [List.mem_singleton.mp hm]
    · intro m hm
      rw [List.mem_singleton.mp hm]
      refine ⟨(Nat.add_le_add_left hlim p).trans hroom, by dsimp only; omega, by dsimp only; omega, ?_⟩
      have hback : p - (p - c + 1) = c - 1 := by omega
      have hnext : c - 1 + 1 = c := by omega
      rw [hback]
      refine ((agree_zero _ _).snoc hbyte).snoc ?_
      rw [bytesFrom, bytesFrom, hnext]
      exact hbyte'
  next h => exact ⟨⟨List.Pairwise.nil, by simp, by simp⟩, by simp⟩

theorem near3_matches {f : Lzf} (wide want : Bool) {p lim : ℕ} {found : ℕ × List (ℕ × ℕ)}
    (hle : ∀ i, f.h3 i ≤ p) (hroom : p + lim ≤ f.s.length) (h : Matches f.s f.reach p found.1 found.2)
    (hfound : found.1 ≤ 2) :
    Matches f.s f.reach p (f.near3 wide p lim want found).1 (f.near3 wide p lim want found).2 := by
  have hc := hle (lzfH3 f.s p)
  rw [Lzf.near3]
  generalize f.h3 (lzfH3 f.s p) = c at hc
  have hlong := lzfMlen_longest wide f.s (c - 1) p lim
  split
  next hnear =>
    obtain ⟨-, hc0, hreach, hlim, hl⟩ := hnear
    have hback : p - (p - c + 1) = c - 1 := by omega
    have hm : IsMatch f.s f.reach p (lzfMlen wide f.s (c - 1) p lim, p - c) := by
      refine ⟨(Nat.add_le_add_left hlong.le p).trans hroom, by dsimp only; omega, by dsimp only; omega, ?_⟩
      rw [hback]
      exact hlong.agree
    refine Matches.snoc ?_ (Nat.lt_of_le_of_lt hfound hl) hm
    split
    · exact h.sublist (List.nil_sublist _)
    · exact h
  next => exact h

/-! ### The tree -/

/-- The walk that `lzf_bt` starts. -/
def walkFrom (f : Lzf) (p : ℕ) (found : ℕ × List (ℕ × ℕ)) : Walk :=
  { son := f.son, c := f.h4 (lzfH4 f.s p f.h4bits), lo := pair f.wmask p, hi := pair f.wmask p + 1, llo := 0,
    lhi := 0, best := found.1, ms := found.2 }

/-- A position within reach has cells other than the new root's. -/
theorem cells_of_root {f : Lzf} (hf : f.Fits) {p x : ℕ} (hxp : x < p) (hlive : p ≤ x + f.reach) :
    (pair f.wmask p ≠ pair f.wmask x ∧ pair f.wmask p ≠ pair f.wmask x + 1) ∧
      pair f.wmask p + 1 ≠ pair f.wmask x ∧ pair f.wmask p + 1 ≠ pair f.wmask x + 1 := by
  obtain ⟨k, -, hk⟩ := hf.mask
  have hne := (pair_ne hk hxp (hlive.trans (Nat.add_le_add_left f.reach_le x))).symm
  exact ⟨⟨hne, pair_ne_succ _ _ _⟩, (pair_ne_succ _ _ _).symm, fun heq => hne (Nat.succ.inj heq)⟩

theorem Rooted.descent {f : Lzf} (hf : f.Fits) {p cut : ℕ} {seen cuts : List ℕ} {T : BinaryTree ℕ}
    (h : Rooted f p seen cuts (lzfH4 f.s p f.h4bits) T) (hcut : cut ∈ cuts) (found : ℕ × List (ℕ × ℕ)) :
    Descent f p cut (walkFrom f p found) T where
  holds := h.holds
  nodup := h.nodup
  ordered := h.ordered cut hcut
  llo_le := Nat.zero_le cut
  lhi_le := Nat.zero_le cut
  above _ _ := prefixLe_zero _ _
  below _ _ := prefixLe_zero _ _
  lo_ne_hi := (Nat.succ_ne_self _).symm
  lo_free x hx := (cells_of_root hf (h.holds.mem x hx).1 (h.holds.mem x hx).2).1
  hi_free x hx := (cells_of_root hf (h.holds.mem x hx).1 (h.holds.mem x hx).2).2

/-- A tree of another bucket is where it was. -/
theorem Rooted.other {f : Lzf} (hf : f.Fits) {p cut n b : ℕ} {seen cuts : List ℕ} {T T' : BinaryTree ℕ}
    {found : ℕ × List (ℕ × ℕ)} {son : ℕ → ℕ} (hT : Rooted f p seen cuts (lzfH4 f.s p f.h4bits) T)
    (hl : Landed f p cut n (walkFrom f p found) T son) (h : Rooted f p seen cuts b T')
    (hb : b ≠ lzfH4 f.s p f.h4bits) : Holds f.reach f.wmask p son (f.h4 b) T' := by
  obtain ⟨k, -, hk⟩ := hf.mask
  have hreach := f.reach_le
  refine h.holds.frame fun x hx => ?_
  have hx' := h.holds.mem x hx
  obtain ⟨⟨h00, h01⟩, h10, h11⟩ := cells_of_root hf hx'.1 hx'.2
  have hapart : ∀ y ∈ toList T, pair f.wmask x ≠ pair f.wmask y := by
    intro y hy
    have hy' := hT.holds.mem y hy
    have hxy : x ≠ y := fun heq => hb ((h.mem x hx).2.symm.trans (heq ▸ (hT.mem y hy).2))
    rcases Nat.lt_or_gt_of_ne hxy with hlt | hlt
    · exact pair_ne hk hlt (by omega)
    · exact (pair_ne hk hlt (by omega)).symm
  exact ⟨hl.spared _ ⟨h00.symm, h10.symm, fun y hy => ⟨hapart y hy, pair_ne_succ _ _ _⟩⟩,
    hl.spared _ ⟨h01.symm, h11.symm, fun y hy =>
      ⟨(pair_ne_succ _ _ _).symm, fun heq => hapart y hy (Nat.succ.inj heq)⟩⟩⟩

/-- The new root, to a walk from past it. An entry past 32 bits is out of any reach. -/
theorem Landed.root {f : Lzf} (hf : f.Fits) {p cut n : ℕ} {t : Walk} {T : BinaryTree ℕ} {son : ℕ → ℕ}
    (hl : Landed f p cut n t T son) (hlo : t.lo = pair f.wmask p) (hhi : t.hi = pair f.wmask p + 1) :
    ∃ T', Holds f.reach f.wmask (p + 1) son (entry p) T' ∧
      (T' = .nil ∨ T' = prune (fun q => decide (q + f.reach < p + 1))
        (.node p (split (side f.s p cut) n T).1 (split (side f.s p cut) n T).2)) := by
  obtain ⟨k, hk32, hk⟩ := hf.mask
  have hreach : f.reach < 2 ^ 32 := by
    have := Nat.pow_le_pow_right Nat.two_pos hk32
    have := Nat.two_pow_pos k
    have := f.reach_le
    omega
  by_cases hp : p + 1 < 2 ^ 32
  · refine ⟨_, ?_, .inr rfl⟩
    rw [entry, Nat.mod_eq_of_lt hp, prune]
    by_cases hgone : p + f.reach < p + 1
    · rw [if_pos (decide_eq_true hgone)]
      exact .gone hgone
    · rw [if_neg (by simpa using hgone)]
      refine .node (Nat.lt_succ_self p) (by omega) ?_ ?_
      · rw [← hlo]
        exact hl.low.prune (Nat.le_succ p)
      · rw [← hhi]
        exact hl.high.prune (Nat.le_succ p)
  · refine ⟨.nil, .gone ?_, .inl rfl⟩
    have : entry p ≤ p + 1 - 2 ^ 32 := by
      rw [entry, Nat.mod_eq_sub_mod (Nat.le_of_not_lt hp)]
      exact Nat.mod_le _ _
    omega

/-- The root is in order over `k` bytes if a node that agrees with it as far as the walk compares
agrees with it over `k`. -/
theorem Rooted.split_ordered {f : Lzf} {p cut k n b : ℕ} {seen cuts : List ℕ} {T : BinaryTree ℕ}
    (h : Rooted f p seen cuts b T) (hk : k ∈ cuts)
    (hharm : ∀ x ∈ toList T, AgreeTo cut (bytesFrom f.s x) (bytesFrom f.s p) → AgreeTo k (bytesFrom f.s x) (bytesFrom f.s p)) :
    Ordered (Under f.s k) (.node p (split (side f.s p cut) n T).1 (split (side f.s p cut) n T).2) := by
  refine (h.ordered k hk).split (fun x y z => PrefixLe.trans) (fun x _ hx => side_lt hx k)
    (fun x _ hx => side_gt hx k) (fun x hx heq => ?_) n
  have hagree := hharm x hx (side_eq heq)
  exact ⟨hagree.prefixLe, hagree.symm.prefixLe⟩

theorem Rooted.rooted_split {f : Lzf} {p cut n : ℕ} {seen cuts cuts' : List ℕ} {T : BinaryTree ℕ}
    (h : Rooted f p seen cuts (lzfH4 f.s p f.h4bits) T) (hsub : cuts' ⊆ cuts)
    (hharm : ∀ x ∈ toList T, AgreeTo cut (bytesFrom f.s x) (bytesFrom f.s p) →
      ∀ k ∈ cuts', AgreeTo k (bytesFrom f.s x) (bytesFrom f.s p)) :
    let root : BinaryTree ℕ := .node p (split (side f.s p cut) n T).1 (split (side f.s p cut) n T).2
    (toList root).Nodup ∧ (∀ k ∈ cuts', Ordered (Under f.s k) root) ∧
      ∀ x ∈ toList root, x ∈ p :: seen ∧ lzfH4 f.s x f.h4bits = lzfH4 f.s p f.h4bits := by
  have hmem : ∀ x ∈ toList (split (side f.s p cut) n T).1 ++ toList (split (side f.s p cut) n T).2,
      x ∈ toList T := fun x hx => mem_split (List.mem_append.mp hx)
  refine ⟨?_, fun k hk => h.split_ordered (hsub hk) fun x hx hagree => hharm x hx hagree k hk, ?_⟩
  · refine List.nodup_cons.mpr ⟨fun hp => ?_, ?_⟩
    · exact Nat.lt_irrefl p (h.holds.mem p (hmem p hp)).1
    · obtain ⟨l, hperm, hsublist⟩ := toList_split (side f.s p cut) n T
      exact hperm.nodup_iff.mp (h.nodup.sublist hsublist)
  · intro x hx
    rcases List.mem_cons.mp hx with rfl | hx
    · exact ⟨List.mem_cons_self, rfl⟩
    · exact ⟨List.mem_cons_of_mem p (h.mem x (hmem x hx)).1, (h.mem x (hmem x hx)).2⟩

/-- The tree part of a call. -/
theorem Indexed.insert {f : Lzf} {wide want : Bool} {p cut n : ℕ} {seen cuts cuts' : List ℕ}
    {found : ℕ × List (ℕ × ℕ)} (hheads : Indexed f (p + 1) seen []) (htree : ∀ b, ∃ T, Rooted f p seen cuts b T)
    (hcut : cut ∈ cuts) (hsub : cuts' ⊆ cuts)
    (hharm : ∀ x ∈ seen, lzfH4 f.s x f.h4bits = lzfH4 f.s p f.h4bits → p ≤ x + f.reach →
      AgreeTo cut (bytesFrom f.s x) (bytesFrom f.s p) → ∀ k ∈ cuts', AgreeTo k (bytesFrom f.s x) (bytesFrom f.s p)) :
    Indexed { f.index4 p with son := (lzfWalk wide f p cut want n (walkFrom f p found)).son } (p + 1) (p :: seen)
      cuts' := by
  obtain ⟨T, hT⟩ := htree (lzfH4 f.s p f.h4bits)
  have hl := walk_lands wide want hheads.fits (hT.descent hheads.fits hcut found) n
  refine ⟨⟨hheads.fits.mask⟩, hheads.h2_le, hheads.h3_le,
    fun b => ?_⟩
  by_cases hb : b = lzfH4 f.s p f.h4bits
  · subst hb
    obtain ⟨T', hholds, hT'⟩ := hl.root hheads.fits rfl rfl
    have hnode := hT.rooted_split (n := n) hsub fun x hx =>
      hharm x (hT.mem x hx).1 (hT.mem x hx).2 (hT.holds.mem x hx).2
    refine ⟨T', ⟨?_, ?_, ?_, ?_⟩⟩
    · simp only [Lzf.index4, Function.update_self]
      exact hholds
    · rcases hT' with rfl | rfl
      · exact List.nodup_nil
      · exact hnode.1.sublist (toList_prune _ _)
    · rcases hT' with rfl | rfl
      · exact fun _ _ => trivial
      · exact fun k hk => (hnode.2.1 k hk).prune _
    · rcases hT' with rfl | rfl
      · simp
      · exact fun x hx => hnode.2.2 x ((toList_prune _ _).subset hx)
  · obtain ⟨T', hT'⟩ := htree b
    have hholds := hT.other hheads.fits hl hT' hb
    have hadv := hT'.advance (Nat.le_succ p) (List.subset_cons_self p seen) hsub
    refine ⟨_, ⟨?_, hadv.nodup, hadv.ordered, hadv.mem⟩⟩
    simp only [Lzf.index4, Function.update_of_ne hb]
    exact hholds.prune (Nat.le_succ p)

/-! ### The call -/

theorem walk_index4 (f : Lzf) (wide want : Bool) (p cut i n : ℕ) (t : Walk) :
    lzfWalk wide (f.index4 i) p cut want n t = lzfWalk wide f p cut want n t := by
  induction n generalizing t with
  | zero => rfl
  | succ n ih =>
      rw [lzfWalk, lzfWalk]
      simp only [ih]
      rfl

/-- A call asks no more of the trees than the limits to come do, and reports matches. -/
theorem Indexed.bt {f : Lzf} (wide want : Bool) {P p lim : ℕ} {seen cuts cuts' : List ℕ}
    (h : Indexed f P seen cuts) (hP : P ≤ p) (hroom : p + lim ≤ f.s.length)
    (hcut : p + 4 ≤ f.s.length → f.cut lim ∈ cuts) (hsub : cuts' ⊆ cuts)
    (hharm : p + 4 ≤ f.s.length → ∀ x ∈ seen, lzfH4 f.s x f.h4bits = lzfH4 f.s p f.h4bits → p ≤ x + f.reach →
      AgreeTo (f.cut lim) (bytesFrom f.s x) (bytesFrom f.s p) → ∀ k ∈ cuts', AgreeTo k (bytesFrom f.s x) (bytesFrom f.s p)) :
    Indexed (lzfBt wide f p lim want).1 (p + 1) (p :: seen) cuts' ∧
      ∃ best, Matches f.s f.reach p best (lzfBt wide f p lim want).2 := by
  have hp : Indexed f p seen cuts := h.advance hP (fun _ hx => hx) fun _ hk => hk
  have hnext := h.advance (Nat.le_succ_of_le hP) (List.subset_cons_self p seen) hsub
  obtain ⟨hm2, hbest⟩ := near2_matches (f := f) lim want hp.h2_le hroom
  rw [lzfBt]
  simp only
  split
  · exact ⟨hnext, 0, List.Pairwise.nil, by simp, by simp⟩
  · split
    · exact ⟨hnext.index2, _, hm2⟩
    · have hm3 := near3_matches (f := f.index2 p) wide want hp.h3_le hroom hm2 hbest
      split
      · exact ⟨hnext.index2.index3, _, hm3⟩
      next hn =>
        have hn' : p + 4 ≤ f.s.length := Nat.le_of_not_lt hn
        have hheads := (hp.advance (Nat.le_succ p) (fun _ hx => hx) (List.nil_subset cuts)).index2.index3
        have htree : ∀ b, ∃ T, Rooted ((f.index2 p).index3 p) p seen cuts b T := by
          intro b
          obtain ⟨T, hT⟩ := hp.tree b
          exact ⟨T, hT.holds, hT.nodup, hT.ordered, hT.mem⟩
        obtain ⟨T, hT⟩ := htree (lzfH4 f.s p f.h4bits)
        have hd := hT.descent hheads.fits (hcut hn') (((f.index2 p).near3 wide p lim want (f.near2 p lim want)))
        have hcutroom : p + f.cut lim ≤ f.s.length :=
          (Nat.add_le_add_left (Nat.min_le_left lim f.nice) p).trans hroom
        rw [walk_index4]
        exact ⟨Indexed.insert hheads htree (hcut hn') hsub (hharm hn'), _, walk_matches wide want hheads.fits hcutroom hd hm3 _⟩

end LoveRuntime.Lzfind

/-! Calls one after the other. A position that a small limit has the walk stop short of telling from
an older one takes that one's sides; a larger limit later would compare over what was not looked at. -/

namespace LoveRuntime.Lzfind

open PrefixOrder SplitTree

/-- A position indexed, and over how many bytes. -/
structure Probe where
  p : ℕ
  lim : ℕ
  deriving DecidableEq, Repr

/-- `lzf_ins`'s positions: so many from `ins` on. -/
def insProbes (n max : ℕ) : ℕ → ℕ → List Probe
  | 0, _ => []
  | k + 1, ins => ⟨ins, min (n - ins) max⟩ :: insProbes n max k (ins + 1)

namespace Call

/-- The positions that a call indexes, where `first` is the first that is not yet. -/
def probes (n first : ℕ) : Call → List Probe
  | bt p lim _ => [⟨p, lim⟩]
  | ins upto max => insProbes n max (upto - first) first
  | all p avail max => insProbes n max (p - first) first ++ if first ≤ p then [⟨p, avail⟩] else []

def insAfter (first : ℕ) : Call → ℕ
  | bt _ _ _ => first
  | ins upto _ => max first upto
  | all p _ _ => if first ≤ p then p + 1 else first

end Call

def probes (n : ℕ) : ℕ → List Call → List Probe
  | _, [] => []
  | ins, c :: cs => c.probes n ins ++ probes n (c.insAfter ins) cs

/-- The positions increase, and no limit passes the bytes left. -/
def Proper (n : ℕ) : ℕ → List Probe → Prop
  | _, [] => True
  | P, a :: later => P ≤ a.p ∧ a.p + a.lim ≤ n ∧ Proper n (a.p + 1) later

instance decidableProper (n : ℕ) : ∀ P ps, Decidable (Proper n P ps)
  | _, [] => .isTrue trivial
  | P, a :: later =>
      have := decidableProper n (a.p + 1) later
      inferInstanceAs (Decidable (P ≤ a.p ∧ a.p + a.lim ≤ n ∧ Proper n (a.p + 1) later))

/-- An older position of the bucket that `a` cannot be told from over its own limit, it cannot over
`b`'s either. -/
def Harmless (f : Lzf) (q : ℕ) (a b : Probe) : Prop :=
  b.p + 4 ≤ f.s.length → lzfH4 f.s q f.h4bits = lzfH4 f.s a.p f.h4bits → a.p ≤ q + f.reach →
    AgreeTo (f.cut a.lim) (bytesFrom f.s q) (bytesFrom f.s a.p) → AgreeTo (f.cut b.lim) (bytesFrom f.s q) (bytesFrom f.s a.p)

def Steady (f : Lzf) : List ℕ → List Probe → Prop
  | _, [] => True
  | seen, a :: later => (∀ q ∈ seen, ∀ b ∈ later, Harmless f q a b) ∧ Steady f (a.p :: seen) later

/-- No match was found yet: the heads are empty. -/
structure Fresh (f : Lzf) : Prop where
  h2 : ∀ i, f.h2 i = 0
  h3 : ∀ i, f.h3 i = 0
  h4 : ∀ i, f.h4 i = 0

/-- The lengths rise, and each is of a match within reach. -/
structure Sound (f : Lzf) (r : ℕ × List (ℕ × ℕ)) : Prop where
  rising : r.2.Pairwise fun m m' => m.1 < m'.1
  isMatch : ∀ m ∈ r.2, IsMatch f.s f.reach r.1 m

/-! ### One position -/

/-- What a call leaves be. -/
structure SameSetting (f g : Lzf) : Prop where
  s : g.s = f.s
  wmask : g.wmask = f.wmask
  dict : g.dict = f.dict
  h4bits : g.h4bits = f.h4bits
  nice : g.nice = f.nice

theorem bt_setting (wide : Bool) (f : Lzf) (p lim : ℕ) (want : Bool) :
    SameSetting f (lzfBt wide f p lim want).1 ∧ (lzfBt wide f p lim want).1.ins = f.ins := by
  rw [lzfBt]
  simp only
  split
  · exact ⟨⟨rfl, rfl, rfl, rfl, rfl⟩, rfl⟩
  · split
    · exact ⟨⟨rfl, rfl, rfl, rfl, rfl⟩, rfl⟩
    · split <;> exact ⟨⟨rfl, rfl, rfl, rfl, rfl⟩, rfl⟩

theorem SameSetting.steady {f g : Lzf} (h : SameSetting f g) {seen : List ℕ} {ps : List Probe}
    (hs : Steady f seen ps) : Steady g seen ps := by
  obtain ⟨s, _, _, _, _, wmask, dict, _, h4bits, _, _, nice, _⟩ := f
  obtain ⟨_, _, _, _, _, _, _, _, _, _, _, _, _⟩ := g
  obtain ⟨rfl, rfl, rfl, rfl, rfl⟩ := h
  induction ps generalizing seen with
  | nil => trivial
  | cons a later ih => exact ⟨hs.1, ih hs.2⟩

theorem SameSetting.trans {f g k : Lzf} (h : SameSetting f g) (h' : SameSetting g k) : SameSetting f k :=
  ⟨h'.s.trans h.s, h'.wmask.trans h.wmask, h'.dict.trans h.dict, h'.h4bits.trans h.h4bits, h'.nice.trans h.nice⟩

theorem SameSetting.reach {f g : Lzf} (h : SameSetting f g) : g.reach = f.reach := by
  rw [Lzf.reach, Lzf.reach, h.dict, h.wmask]

theorem SameSetting.sound {f g : Lzf} (h : SameSetting f g) {r : ℕ × List (ℕ × ℕ)} (hr : Sound g r) :
    Sound f r := by
  refine ⟨hr.rising, fun m hm => ?_⟩
  rw [← h.s, ← h.reach]
  exact hr.isMatch m hm

/-- How far the calls to come compare. -/
def cuts (f : Lzf) (later : List Probe) : List ℕ :=
  (later.filter fun b => decide (b.p + 4 ≤ f.s.length)).map fun b => f.cut b.lim

/-- Between calls. -/
structure Ready (f : Lzf) (P : ℕ) (seen : List ℕ) (later : List Probe) : Prop where
  indexed : Indexed f P seen (cuts f later)
  proper : Proper f.s.length P later
  steady : Steady f seen later

theorem SameSetting.cuts {f g : Lzf} (h : SameSetting f g) (later : List Probe) : cuts g later = cuts f later := by
  rw [Lzfind.cuts, Lzfind.cuts, h.s]
  simp only [Lzf.cut, h.nice]

theorem Ready.bt {f : Lzf} {P : ℕ} {seen : List ℕ} {a : Probe} {later : List Probe}
    (h : Ready f P seen (a :: later)) (wide want : Bool) :
    Ready (lzfBt wide f a.p a.lim want).1 (a.p + 1) (a.p :: seen) later ∧
      Sound f (a.p, (lzfBt wide f a.p a.lim want).2) := by
  obtain ⟨hP, hroom, hproper⟩ := h.proper
  obtain ⟨hharm, hsteady⟩ := h.steady
  obtain ⟨hset, -⟩ := bt_setting wide f a.p a.lim want
  have hcut : a.p + 4 ≤ f.s.length → f.cut a.lim ∈ cuts f (a :: later) := by
    intro hn
    simp [cuts, hn]
  have hsub : cuts f later ⊆ cuts f (a :: later) := by
    intro k hk
    rw [cuts, List.filter_cons]
    split
    · exact List.mem_cons_of_mem _ hk
    · exact hk
  obtain ⟨hindexed, best, hm⟩ := h.indexed.bt wide want hP hroom hcut hsub
    fun _ x hx hhash hlive hagree k hk => by
      obtain ⟨b, hb, rfl⟩ := List.mem_map.mp hk
      obtain ⟨hb, hn⟩ := List.mem_filter.mp hb
      exact hharm x hx b hb (by simpa using hn) hhash hlive hagree
  refine ⟨⟨?_, ?_, hset.steady hsteady⟩, hm.rising, hm.isMatch⟩
  · rwa [hset.cuts]
  · rwa [hset.s]

/-! ### Calls -/

/-- The index of what is indexed decides nothing but which positions come. -/
theorem Ready.setIns {f : Lzf} {P : ℕ} {seen : List ℕ} {later : List Probe} (h : Ready f P seen later) (i : ℕ) :
    Ready { f with ins := i } P seen later := by
  have hset : SameSetting f { f with ins := i } := ⟨rfl, rfl, rfl, rfl, rfl⟩
  refine ⟨⟨⟨h.indexed.fits.mask⟩, h.indexed.h2_le, h.indexed.h3_le, fun b => ?_⟩, h.proper, hset.steady h.steady⟩
  obtain ⟨T, hT⟩ := h.indexed.tree b
  exact ⟨T, hT.holds, hT.nodup, hT.ordered, hT.mem⟩

/-- `lzf_ins`'s loop, whatever comes after. -/
theorem Ready.insLoop (wide : Bool) (max : ℕ) {k : ℕ} {f : Lzf} {P : ℕ} {seen : List ℕ} {later : List Probe}
    (h : Ready f P seen (insProbes f.s.length max k f.ins ++ later)) :
    SameSetting f (lzfInsLoop wide max k f) ∧ (lzfInsLoop wide max k f).ins = f.ins + k ∧
      ∃ P' seen', Ready (lzfInsLoop wide max k f) P' seen' later := by
  induction k generalizing f P seen with
  | zero => exact ⟨⟨rfl, rfl, rfl, rfl, rfl⟩, rfl, P, seen, h⟩
  | succ k ih =>
      obtain ⟨hset, -⟩ := bt_setting wide f f.ins (min (f.s.length - f.ins) max) false
      obtain ⟨hready, -⟩ := h.bt wide false
      have hnext : Ready { (lzfBt wide f f.ins (min (f.s.length - f.ins) max) false).1 with ins := f.ins + 1 }
          (f.ins + 1) (f.ins :: seen)
          (insProbes (lzfBt wide f f.ins (min (f.s.length - f.ins) max) false).1.s.length max k (f.ins + 1) ++
            later) := by
        rw [hset.s]
        exact hready.setIns (f.ins + 1)
      obtain ⟨hset', hins, P', seen', hend⟩ := ih hnext
      rw [lzfInsLoop]
      exact ⟨hset.trans ⟨hset'.s, hset'.wmask, hset'.dict, hset'.h4bits, hset'.nice⟩, hins.trans (Nat.succ_add_eq_add_succ f.ins k),
        P', seen', hend⟩

theorem Ready.run (wide : Bool) {f : Lzf} {P : ℕ} {seen : List ℕ} {later : List Probe} {c : Call}
    (h : Ready f P seen (c.probes f.s.length f.ins ++ later)) :
    SameSetting f (c.run wide f).1 ∧ (c.run wide f).1.ins = c.insAfter f.ins ∧
      (∃ P' seen', Ready (c.run wide f).1 P' seen' later) ∧ ∀ r ∈ (c.run wide f).2, Sound f r := by
  cases c with
  | bt p lim want =>
      obtain ⟨hset, hins⟩ := bt_setting wide f p lim want
      obtain ⟨hready, hsound⟩ := h.bt wide want
      refine ⟨hset, hins, ⟨_, _, hready⟩, fun r hr => ?_⟩
      obtain rfl := List.mem_singleton.mp hr
      exact hsound
  | ins upto max =>
      obtain ⟨hset, hins, hready⟩ := h.insLoop wide max
      refine ⟨hset, ?_, hready, by simp [Call.run]⟩
      rw [Call.run, lzfIns, hins, Call.insAfter]
      omega
  | all p avail max =>
      rw [Call.probes, List.append_assoc] at h
      obtain ⟨hset, hins, P', seen', hready⟩ := h.insLoop wide max
      have hfresh : (lzfIns wide f p max).ins = f.ins + (p - f.ins) := hins
      rw [Call.run, lzfAll]
      simp only
      by_cases hp : f.ins ≤ p
      · rw [if_neg (by rw [hfresh]; omega)]
        rw [if_pos hp] at hready
        obtain ⟨hset', hins'⟩ := bt_setting wide { lzfIns wide f p max with ins := p + 1 } p avail true
        obtain ⟨hready', hsound⟩ := (hready.setIns (p + 1)).bt wide true
        refine ⟨hset.trans ⟨hset'.s, hset'.wmask, hset'.dict, hset'.h4bits, hset'.nice⟩, ?_, ⟨_, _, hready'⟩,
          fun r hr => ?_⟩
        · rw [hins', Call.insAfter, if_pos hp]
        · obtain rfl := List.mem_singleton.mp hr
          exact hset.sound ⟨hsound.rising, hsound.isMatch⟩
      · rw [if_pos (by rw [hfresh]; omega)]
        rw [if_neg hp] at hready
        refine ⟨hset, ?_, ⟨_, _, hready⟩, fun r hr => ?_⟩
        · rw [hfresh, Call.insAfter, if_neg hp]
          omega
        · obtain rfl := List.mem_singleton.mp hr
          exact ⟨List.Pairwise.nil, by simp⟩

theorem Ready.reports (wide : Bool) {f : Lzf} {P : ℕ} {seen : List ℕ} {calls : List Call}
    (h : Ready f P seen (probes f.s.length f.ins calls)) : ∀ r ∈ reports wide f calls, Sound f r := by
  induction calls generalizing f P seen with
  | nil => simp [Lzfind.reports]
  | cons c cs ih =>
      obtain ⟨hset, hins, ⟨P', seen', hready⟩, hsound⟩ := Ready.run wide h
      rw [← hset.s, ← hins] at hready
      intro r hr
      rw [Lzfind.reports] at hr
      rcases List.mem_append.mp hr with hr | hr
      · exact hsound r hr
      · exact hset.sound (ih hready r hr)

theorem Fresh.ready {f : Lzf} (hfresh : Fresh f) (hf : f.Fits) {ps : List Probe} (hproper : Proper f.s.length 0 ps)
    (hsteady : Steady f [] ps) : Ready f 0 [] ps := by
  refine ⟨⟨hf, fun i => (hfresh.h2 i).le, fun i => (hfresh.h3 i).le, fun b => ⟨.nil, ?_, List.nodup_nil, ?_, ?_⟩⟩,
    hproper, hsteady⟩
  · rw [hfresh.h4]
    exact .empty
  · exact fun _ _ => trivial
  · simp

/-- Every report is of matches, so long as no position is told from an older one over less than what is
later compared. -/
theorem reports_sound (wide : Bool) (f : Lzf) (hfits : f.Fits) (hfresh : Fresh f) (calls : List Call)
    (hproper : Proper f.s.length 0 (probes f.s.length f.ins calls))
    (hsteady : Steady f [] (probes f.s.length f.ins calls)) : ∀ r ∈ reports wide f calls, Sound f r :=
  (hfresh.ready hfits hproper hsteady).reports wide

/-! ### Limits that do not grow -/

/-- Where each call compares over no less than those after it, as where only the end of the buffer
limits them, nothing is taken for the same that is not. -/
theorem steady_of_shrinking {f : Lzf} {ps : List Probe} (h : ps.Pairwise fun a b => f.cut b.lim ≤ f.cut a.lim)
    (seen : List ℕ) : Steady f seen ps := by
  induction ps generalizing seen with
  | nil => trivial
  | cons a later ih =>
      obtain ⟨ha, hlater⟩ := List.pairwise_cons.mp h
      exact ⟨fun q _ b hb _ _ _ hagree => hagree.mono (ha b hb), ih hlater (a.p :: seen)⟩

/-! ### A chunk that ends between -/

def chunked : Lzf where
  s := "abcdb2abcdb1abcdc1abcdc3abcdc2".toUTF8.toList
  h2 := fun _ => 0
  h3 := fun _ => 0
  h4 := fun _ => 0
  son := fun _ => 0
  wmask := 2 ^ 16 - 1
  dict := 4096
  ins := 0
  h4bits := 16
  depth := 48
  skipdepth := 8
  nice := 273
  maxm := 16

/-- Every position in turn, those below `16` with what is left to there. -/
def chunkedCalls : List Call :=
  (List.range 25).map fun p => .all p (min 273 ((if p < 16 then 16 else 30) - p)) 273

/-- At `24` the bytes are those at `0` but for the fifth. -/
theorem chunked_mismatch :
    chunked.Fits ∧ Fresh chunked ∧ Proper chunked.s.length 0 (probes chunked.s.length chunked.ins chunkedCalls) ∧
      (24, [(5, 5), (6, 23)]) ∈ reports false chunked chunkedCalls ∧ ¬ Sound chunked (24, [(5, 5), (6, 23)]) := by
  refine ⟨⟨16, by decide, rfl⟩, ⟨fun _ => rfl, fun _ => rfl, fun _ => rfl⟩, by with_unfolding_all decide,
    by decide +kernel, fun h => ?_⟩
  have hfifth : byteAt chunked.s (0 + 4) = byteAt chunked.s (24 + 4) :=
    (h.isMatch (6, 23) (by simp)).agree 4 (by decide)
  revert hfifth
  with_unfolding_all decide

/-- With the limits of the whole buffer. -/
theorem unchunked_sound :
    List.Forall (Sound chunked)
      (reports true chunked ((List.range 25).map fun p => .all p (30 - p) 273)) :=
  List.forall_iff_forall_mem.mpr
    (reports_sound true chunked ⟨16, by decide, rfl⟩ ⟨fun _ => rfl, fun _ => rfl, fun _ => rfl⟩ _
      (by with_unfolding_all decide) (steady_of_shrinking (by decide +kernel) []))

end LoveRuntime.Lzfind
