import Mathlib.Data.List.TakeWhile
import LoveRuntime.Library.Spans
import LoveRuntime.Model.Arena

/-! What holds of the arena while some spans are out: the spans out, the free ones and the
bump chunk's tail are all the chunks, each address once. A release puts a span back. -/

namespace LoveRuntime.Arena

open Spans

def Code.all (c : Code) : ℕ × ℕ := (c.base, c.len)

def Code.tail (c : Code) : ℕ × ℕ := (c.base + c.used, c.len - c.used)

def Code.Holds (c : Code) (f : ℕ × ℕ) : Prop := c.base ≤ f.1 ∧ f.1 + f.2 ≤ c.base + c.len

/-- The chunks the installs own. -/
def owned (code : List Code) : List (ℕ × ℕ) := (code.filter fun c => !c.fixed).map Code.all

/-- The bump chunk. -/
def bumpOf (code : List Code) : Option Code := code.find? fun c => !c.fixed

def tail (code : List Code) : List (ℕ × ℕ) := ((bumpOf code).map Code.tail).toList

/-- The spans `out` are out of the arena. -/
structure Sound (s : Core) (out : List (ℕ × ℕ)) : Prop where
  apart : ∀ x, count (s.code.map Code.all) x ≤ 1
  small : ∀ c ∈ s.code, 0 < c.len ∧ c.used ≤ c.len ∧ c.base + c.len ≤ 2 ^ 64 ∧ 0 < c.base
  cover : ∀ x, count out x + count s.cfree x + count (tail s.code) x = count (owned s.code) x
  sorted : s.cfree.Pairwise fun f g => f.1 + f.2 ≤ g.1
  inside : ∀ f ∈ out ++ s.cfree, 0 < f.2 ∧ ∃ c ∈ s.code, c.fixed = false ∧ c.Holds f
  coalesced : ∀ c ∈ s.code, ∀ f ∈ s.cfree, ∀ g ∈ s.cfree, c.base ≤ f.1 → g.1 < c.base + c.len →
    f.1 + f.2 ≠ g.1
  top : ∀ c, bumpOf s.code = some c → ∀ f ∈ s.cfree, c.base ≤ f.1 → f.1 + f.2 ≠ c.base + c.used

/-! ### Chunks -/

/-- The chunk at `i`, between those before and after. -/
theorem exists_split {code : List Code} {i : ℕ} {c : Code} (h : code[i]? = some c) :
    ∃ pre post, code = pre ++ c :: post ∧ pre.length = i := by
  obtain ⟨hi, rfl⟩ := List.getElem?_eq_some_iff.mp h
  exact ⟨code.take i, code.drop (i + 1), by
    rw [← List.drop_eq_getElem_cons hi, List.take_append_drop], List.length_take_of_le (Nat.le_of_lt hi)⟩

/-- The bump chunk has only images' chunks before it. -/
theorem bump_split {s : Core} {i : ℕ} (h : codeBump s = some i) :
    ∃ pre c post, s.code = pre ++ c :: post ∧ pre.length = i ∧ (∀ d ∈ pre, d.fixed = true) ∧
      c.fixed = false := by
  obtain ⟨hi, hc, hpre⟩ := List.findIdx?_eq_some_iff_getElem.mp h
  have hget := List.getElem?_eq_getElem hi
  generalize s.code[i] = c at hc hget
  obtain ⟨pre, post, hcode, hlen⟩ := exists_split hget
  refine ⟨pre, c, post, hcode, hlen, fun d hd => ?_, by simpa using hc⟩
  obtain ⟨j, hj, rfl⟩ := List.getElem_of_mem hd
  have hj' := hpre j (by omega)
  have hjs : j < s.code.length := by omega
  have heq : s.code[j] = pre[j] := by
    simp only [hcode, List.getElem_append_left hj]
  simpa [heq] using hj'

theorem modify_length (pre post : List Code) (c : Code) (f : Code → Code) :
    (pre ++ c :: post).modify pre.length f = pre ++ f c :: post := by
  induction pre with
  | nil => rfl
  | cons d pre ih => rw [List.cons_append, List.length_cons, List.modify_succ_cons, ih, List.cons_append]

theorem bumpOf_split {pre post : List Code} {c : Code} (hpre : ∀ d ∈ pre, d.fixed = true)
    (hc : c.fixed = false) : bumpOf (pre ++ c :: post) = some c := by
  rw [bumpOf, List.find?_append, List.find?_eq_none.mpr fun d hd => by simp [hpre d hd]]
  simp [hc]

theorem codeBump_split {s : Core} {pre post : List Code} {c : Code} (hcode : s.code = pre ++ c :: post)
    (hpre : ∀ d ∈ pre, d.fixed = true) (hc : c.fixed = false) : codeBump s = some pre.length := by
  rw [codeBump, hcode, List.findIdx?_append, List.findIdx?_eq_none_iff.mpr fun d hd => by simp [hpre d hd]]
  simp [List.findIdx?_cons, hc]

theorem setUsed_split {s : Core} {pre post : List Code} {c : Code} (hcode : s.code = pre ++ c :: post)
    (used : ℕ) : (setUsed s pre.length used).code = pre ++ { c with used := used } :: post := by
  rw [setUsed, hcode, modify_length]

theorem owned_used (pre post : List Code) (c : Code) (used : ℕ) :
    owned (pre ++ { c with used := used } :: post) = owned (pre ++ c :: post) := by
  simp only [owned, List.filter_append, List.filter_cons, List.map_append]
  cases c.fixed <;> rfl

theorem all_used (pre post : List Code) (c : Code) (used : ℕ) :
    (pre ++ { c with used := used } :: post).map Code.all = (pre ++ c :: post).map Code.all := by
  simp [Code.all]

/-- Two chunks that share an address are one. -/
theorem chunk_unique {code : List Code} (h : ∀ x, count (code.map Code.all) x ≤ 1) {c d : Code}
    (hc : c ∈ code) (hd : d ∈ code) {x : ℕ} (hcx : holds c.all x = 1) (hdx : holds d.all x = 1) : c = d := by
  induction code with
  | nil => cases hc
  | cons e code ih =>
      have htail : ∀ x, count (code.map Code.all) x ≤ 1 := fun x => by
        have := h x
        rw [List.map_cons, count_cons] at this
        omega
      have hx := h x
      rw [List.map_cons, count_cons] at hx
      rcases List.mem_cons.mp hc with hce | hc' <;> rcases List.mem_cons.mp hd with hde | hd'
      · rw [hce, hde]
      · have := holds_le_count (List.mem_map_of_mem (f := Code.all) hd') x
        rw [← hce] at hx
        omega
      · have := holds_le_count (List.mem_map_of_mem (f := Code.all) hc') x
        rw [← hde] at hx
        omega
      · exact ih htail hc' hd'

theorem bump_get {c : Code} (h : bumpOf s.code = some c) :
    ∃ pre post, s.code = pre ++ c :: post ∧ (∀ d ∈ pre, d.fixed = true) ∧ c.fixed = false ∧
      codeBump s = some pre.length ∧ s.code[pre.length]? = some c := by
  obtain ⟨hc, pre, post, hcode, hpre⟩ := List.find?_eq_some_iff_append.mp h
  have hpre' : ∀ d ∈ pre, d.fixed = true := fun d hd => by simpa using hpre d hd
  have hc' : c.fixed = false := by simpa using hc
  exact ⟨pre, post, hcode, hpre', hc', codeBump_split hcode hpre' hc', by
    rw [hcode, List.getElem?_append_right (Nat.le_refl _), Nat.sub_self, List.getElem?_cons_zero]⟩

theorem bumpOf_get {s : Core} {i : ℕ} {c : Code} (hi : codeBump s = some i) (hget : s.code[i]? = some c) :
    bumpOf s.code = some c := by
  obtain ⟨pre, d, post, hcode, hlen, hpre, hd⟩ := bump_split hi
  rw [hcode, ← hlen, List.getElem?_append_right (Nat.le_refl _), Nat.sub_self] at hget
  cases hget
  rw [hcode, bumpOf_split hpre hd]

/-- The chunk of an address of the bump chunk. -/
theorem chunkOf_bump {s : Core} (h : ∀ x, count (s.code.map Code.all) x ≤ 1) {c : Code} {p : ℕ}
    (hc : bumpOf s.code = some c) (hp : c.base ≤ p) (hp' : p < c.base + c.len) :
    chunkOf s p = codeBump s ∧ ∀ i, codeBump s = some i → s.code[i]? = some c := by
  obtain ⟨pre, post, hcode, hpre, hcfix, hbump, hget⟩ := bump_get hc
  refine ⟨?_, fun i hi => ?_⟩
  · have hlt : pre.length < s.code.length := by rw [hcode, List.length_append, List.length_cons]; omega
    have hat : s.code[pre.length] = c := by
      rw [List.getElem?_eq_getElem hlt] at hget
      exact Option.some.inj hget
    rw [hbump, chunkOf, List.findIdx?_eq_some_iff_getElem]
    refine ⟨hlt, by simp [hat, hp, hp'], fun j hj => ?_⟩
    have hjs : j < s.code.length := Nat.lt_trans hj hlt
    intro hheld
    have hheld' : (s.code[j]).base ≤ p ∧ p < (s.code[j]).base + (s.code[j]).len := by simpa using hheld
    have heq := chunk_unique h (List.getElem_mem hjs) (List.mem_of_find?_eq_some hc) (x := p)
      (holds_of_mem hheld'.1 hheld'.2) (holds_of_mem hp hp')
    have hj' : s.code[j] = pre[j] := by simp only [hcode, List.getElem_append_left hj]
    have := hpre pre[j] (List.getElem_mem hj)
    rw [← hj', heq, hcfix] at this
    cases this
  · rw [hbump] at hi
    cases hi
    exact hget

theorem Code.Holds.mem {c : Code} {f : ℕ × ℕ} (h : c.Holds f) {x : ℕ} (hx : f.1 ≤ x) (hx' : x < f.1 + f.2) :
    holds c.all x = 1 := holds_of_mem (Nat.le_trans h.1 hx) (Nat.lt_of_lt_of_le hx' h.2)

theorem count_owned_le (code : List Code) (x : ℕ) : count (owned code) x ≤ count (code.map Code.all) x := by
  induction code with
  | nil => exact Nat.le_refl _
  | cons c code ih =>
      rw [owned, List.filter_cons]
      split
      · rw [List.map_cons, List.map_cons, count_cons, count_cons]
        exact Nat.add_le_add_left ih _
      · rw [List.map_cons, count_cons]
        exact Nat.le_trans ih (Nat.le_add_left _ _)

variable {s : Core} {out : List (ℕ × ℕ)}

/-- No address is in two places. -/
theorem Sound.once (h : Sound s out) (x : ℕ) :
    count out x + count s.cfree x + count (tail s.code) x ≤ 1 := by
  rw [h.cover]
  exact Nat.le_trans (count_owned_le _ x) (h.apart x)

/-- A chunk that holds an address of a span holds the span. -/
theorem Sound.holds_of_mem (h : Sound s out) {f : ℕ × ℕ} (hf : f ∈ out ++ s.cfree) {c : Code}
    (hc : c ∈ s.code) {x : ℕ} (hx : f.1 ≤ x) (hx' : x < f.1 + f.2) (hcx : holds c.all x = 1) :
    c.fixed = false ∧ c.Holds f := by
  obtain ⟨-, d, hd, hdfix, hdf⟩ := h.inside f hf
  have heq := chunk_unique h.apart hc hd hcx (hdf.mem hx hx')
  subst heq
  exact ⟨hdfix, hdf⟩

/-! ### Joining the free list -/

/-- A free span beside `[p, p + n)` in the chunk. -/
def Touches (c : Code) (p n : ℕ) (l : List (ℕ × ℕ)) : Prop :=
  ∃ f ∈ l, c.base ≤ f.1 ∧ f.1 + f.2 = p ∨ f.1 = p + n ∧ f.1 < c.base + c.len

/-- A span that joins the list between `B` and `A`, with the neighbours `lo` and `hi`. -/
structure Joined (c : Code) (p n : ℕ) (l m : List (ℕ × ℕ)) (B lo hi A : List (ℕ × ℕ)) (q k : ℕ) : Prop where
  before : l = B ++ (lo ++ (hi ++ A))
  after : m = B ++ (q, k) :: A
  lower : lo = [] ∧ q = p ∨ ∃ f, lo = [f] ∧ q = f.1 ∧ f.1 + f.2 = p ∧ c.base ≤ f.1
  upper : hi = [] ∧ q + k = p + n ∨
    ∃ g, hi = [g] ∧ q + k = g.1 + g.2 ∧ g.1 = p + n ∧ g.1 < c.base + c.len
  below : ∀ f ∈ B, f.1 + f.2 ≤ p ∧ (lo = [] → c.base ≤ f.1 → f.1 + f.2 ≠ p)
  above : ∀ g ∈ A, p + n ≤ g.1 ∧ (hi = [] → g.1 < c.base + c.len → g.1 ≠ p + n)

/-- The neighbour below `p` that the scan finds, if any. -/
theorem exists_lower {c : Code} {p : ℕ} {before : List (ℕ × ℕ)}
    (hsorted : before.Pairwise fun f g => f.1 + f.2 ≤ g.1) (hlow : ∀ f ∈ before, f.1 < p) :
    ∃ B lo q, before = B ++ lo ∧ q ≤ p ∧
      (before.getLast?.filter fun f => decide (c.base ≤ f.1) && decide (f.1 + f.2 = p)) = lo.head? ∧
      (lo = [] ∧ q = p ∨ ∃ f, lo = [f] ∧ q = f.1 ∧ f.1 + f.2 = p ∧ c.base ≤ f.1) ∧
      ∀ f ∈ B, lo = [] → c.base ≤ f.1 → f.1 + f.2 ≠ p := by
  rcases List.eq_nil_or_concat' before with hnil | ⟨B, f, hB⟩
  · exact ⟨[], [], p, by simp [hnil], Nat.le_refl p, by simp [hnil], Or.inl ⟨rfl, rfl⟩, by simp⟩
  · by_cases htouch : c.base ≤ f.1 ∧ f.1 + f.2 = p
    · exact ⟨B, [f], f.1, hB, by omega, by simp [hB, htouch], Or.inr ⟨f, rfl, rfl, htouch.2, htouch.1⟩,
        by simp⟩
    · refine ⟨before, [], p, by simp, Nat.le_refl p, ?_, Or.inl ⟨rfl, rfl⟩, fun g hg _ hbase hend => ?_⟩
      · simp only [hB, List.getLast?_concat, List.head?_nil, Option.filter_some, Bool.and_eq_true,
          decide_eq_true_eq]
        rw [if_neg htouch]
      · have hf := hlow f (by rw [hB]; simp)
        rw [hB] at hsorted hg
        rcases List.mem_append.mp hg with hg | hg
        · have := (List.pairwise_append.mp hsorted).2.2 g hg f (List.mem_singleton_self f)
          omega
        · rw [List.mem_singleton.mp hg] at hbase hend
          exact htouch ⟨hbase, hend⟩

/-- The neighbour above `p + n`, if any. -/
theorem exists_upper {c : Code} {p n : ℕ} {after : List (ℕ × ℕ)}
    (hsorted : after.Pairwise fun f g => f.1 + f.2 ≤ g.1) (hpos : ∀ f ∈ after, 0 < f.2)
    (habove : ∀ g ∈ after, p + n ≤ g.1) :
    ∃ hi A e, after = hi ++ A ∧ p + n ≤ e ∧
      (after.head?.filter fun f => decide (f.1 = p + n) && decide (f.1 < c.base + c.len)) = hi.head? ∧
      (hi = [] ∧ e = p + n ∨ ∃ g, hi = [g] ∧ e = g.1 + g.2 ∧ g.1 = p + n ∧ g.1 < c.base + c.len) ∧
      ∀ g ∈ A, hi = [] → g.1 < c.base + c.len → g.1 ≠ p + n := by
  cases after with
  | nil => exact ⟨[], [], p + n, by simp, Nat.le_refl _, by simp, Or.inl ⟨rfl, rfl⟩, by simp⟩
  | cons g A =>
      by_cases htouch : g.1 = p + n ∧ g.1 < c.base + c.len
      · refine ⟨[g], A, g.1 + g.2, rfl, by omega, ?_, Or.inr ⟨g, rfl, rfl, htouch.1, htouch.2⟩, by simp⟩
        simp only [List.head?_cons, Option.filter_some, Bool.and_eq_true, decide_eq_true_eq]
        rw [if_pos htouch]
      · refine ⟨[], g :: A, p + n, rfl, Nat.le_refl _, ?_, Or.inl ⟨rfl, rfl⟩, fun h hh _ hlen hstart => ?_⟩
        · simp only [List.head?_cons, List.head?_nil, Option.filter_some, Bool.and_eq_true,
            decide_eq_true_eq]
          rw [if_neg htouch]
        · rcases List.mem_cons.mp hh with hhg | hh
          · rw [hhg] at hstart hlen
            exact htouch ⟨hstart, hlen⟩
          · have := (List.pairwise_cons.mp hsorted).1 h hh
            have := habove g List.mem_cons_self
            have := hpos g List.mem_cons_self
            omega

/-- The scan stops at the first span at `p` or above. -/
theorem scan_above {p n : ℕ} {l : List (ℕ × ℕ)} (hsorted : l.Pairwise fun f g => f.1 + f.2 ≤ g.1)
    (hpos : ∀ f ∈ l, 0 < f.2) (hfree : ∀ f ∈ l, f.1 + f.2 ≤ p ∨ p + n ≤ f.1) :
    ∀ g ∈ l.dropWhile fun f => decide (f.1 < p), p + n ≤ g.1 := by
  induction l with
  | nil => simp
  | cons f l ih =>
      by_cases hf : f.1 < p
      · rw [List.dropWhile_cons_of_pos (by simp [hf])]
        exact ih (List.pairwise_cons.mp hsorted).2 (fun g hg => hpos g (List.mem_cons_of_mem _ hg))
          fun g hg => hfree g (List.mem_cons_of_mem _ hg)
      · rw [List.dropWhile_cons_of_neg (by simp [hf])]
        have hge : p + n ≤ f.1 := by
          have := hpos f List.mem_cons_self
          rcases hfree f List.mem_cons_self with h | h
          · omega
          · exact h
        intro g hg
        rcases List.mem_cons.mp hg with hgf | hg
        · rw [hgf]
          exact hge
        · have := (List.pairwise_cons.mp hsorted).1 g hg
          omega

theorem putFree_joined {c : Code} {p n : ℕ} {node : Bool} {l : List (ℕ × ℕ)}
    (hsorted : l.Pairwise fun f g => f.1 + f.2 ≤ g.1) (hpos : ∀ f ∈ l, 0 < f.2)
    (hfree : ∀ f ∈ l, f.1 + f.2 ≤ p ∨ p + n ≤ f.1) (hnode : node = true ∨ Touches c p n l) :
    ∃ B lo hi A q k, Joined c p n l (putFree c p n node l) B lo hi A q k := by
  obtain ⟨before, hbefore⟩ : ∃ b, l.takeWhile (fun f => decide (f.1 < p)) = b := ⟨_, rfl⟩
  obtain ⟨after, hafter⟩ : ∃ a, l.dropWhile (fun f => decide (f.1 < p)) = a := ⟨_, rfl⟩
  have hl : l = before ++ after := by rw [← hbefore, ← hafter, List.takeWhile_append_dropWhile]
  have hlow : ∀ f ∈ before, f.1 < p := fun f hf => by
    rw [← hbefore] at hf
    simpa using List.mem_takeWhile_imp hf
  have hbelow : ∀ f ∈ before, f.1 + f.2 ≤ p := fun f hf => by
    have := hlow f hf
    rcases hfree f (by rw [hl]; exact List.mem_append_left _ hf) with h | h <;> omega
  have habove : ∀ g ∈ after, p + n ≤ g.1 := hafter ▸ scan_above hsorted hpos hfree
  have hpos' : ∀ f ∈ after, 0 < f.2 := fun f hf => hpos f (by rw [hl]; exact List.mem_append_right _ hf)
  have hsplit := List.pairwise_append.mp (hl ▸ hsorted)
  obtain ⟨B, lo, q, hB, hq, hlo, hlocase, hBtouch⟩ := exists_lower (c := c) hsplit.1 hlow
  obtain ⟨hi, A, e, hA, he, hhi, hhicase, hAtouch⟩ := exists_upper (c := c) hsplit.2.1 hpos' habove
  refine ⟨B, lo, hi, A, q, e - q, ⟨?_, ?_, hlocase, ?_, ?_, ?_⟩⟩
  · rw [hl, hB, hA, List.append_assoc]
  · simp only [putFree, hbefore, hafter, hlo, hhi]
    rcases hlocase with ⟨hlo', hq'⟩ | ⟨f, hlo', hq', hend, hbase⟩
    · rcases hhicase with ⟨hhi', he'⟩ | ⟨g, hhi', he', hstart, hlen⟩
      · subst hlo' hhi'
        have hn : node = true := by
          refine hnode.resolve_right fun ⟨f, hf, htouch⟩ => ?_
          rw [hl, hB, hA] at hf
          simp only [List.append_nil, List.nil_append, List.mem_append] at hf
          rcases hf with hf | hf
          · rcases htouch with ⟨h1, h2⟩ | ⟨h1, h2⟩
            · exact hBtouch f hf rfl h1 h2
            · have := hlow f (by rw [hB]; simpa using hf)
              omega
          · rcases htouch with ⟨h1, h2⟩ | ⟨h1, h2⟩
            · have := habove f (by rw [hA]; simpa using hf)
              have := hpos' f (by rw [hA]; simpa using hf)
              omega
            · exact hAtouch f hf rfl h2 h1
        have hk : e - q = n := by omega
        rw [hk]
        simp [hn, hB, hA, hq']
      · subst hlo' hhi'
        have hk : e - q = g.2 + n := by omega
        rw [hk]
        simp [hB, hA, hq']
    · rcases hhicase with ⟨hhi', he'⟩ | ⟨g, hhi', he', hstart, hlen⟩
      · subst hlo' hhi'
        have hk : e - q = f.2 + n := by omega
        rw [hk]
        simp [hB, hA, hq']
      · subst hlo' hhi'
        have hk : e - q = f.2 + (n + g.2) := by omega
        rw [hk]
        simp [hB, hA, hq']
  · exact hhicase.imp (fun ⟨h1, h2⟩ => ⟨h1, by omega⟩) fun ⟨g, h1, h2, h3⟩ => ⟨g, h1, by omega, h3⟩
  · exact fun f hf => ⟨hbelow f (by rw [hB]; exact List.mem_append_left _ hf), hBtouch f hf⟩
  · exact fun g hg => ⟨habove g (by rw [hA]; exact List.mem_append_right _ hg), hAtouch g hg⟩

section
variable {c : Code} {p n : ℕ} {l m B lo hi A : List (ℕ × ℕ)} {q k : ℕ}

/-- What joins is the span and the neighbours, end to end. -/
theorem Joined.holds (j : Joined c p n l m B lo hi A q k) (x : ℕ) :
    Spans.holds (q, k) x = count lo x + (Spans.holds (p, n) x + count hi x) := by
  have hup : ∀ r t, r + t = p → Spans.holds (r, q + k - r) x = Spans.holds (r, t) x +
      (Spans.holds (p, n) x + count hi x) := fun r t hr => by
    rcases j.upper with ⟨hhi, hend⟩ | ⟨g, hhi, hend, hstart, -⟩
    · have hk : q + k - r = t + n := by omega
      rw [hhi, hk, holds_add, hr, count_nil, Nat.add_zero]
    · have hk : q + k - r = t + (n + g.2) := by omega
      rw [hhi, hk, holds_add, hr, holds_add, ← hstart, count_cons, count_nil, Nat.add_zero]
  have hk : k = q + k - q := by omega
  rcases j.lower with ⟨hlo, hq⟩ | ⟨f, hlo, hq, hend, -⟩
  · rw [hk, hlo, count_nil, hup q 0 (by omega), holds_zero]
  · rw [hk, hlo, count_cons, count_nil, Nat.add_zero, hup q f.2 (by omega), hq]

theorem Joined.count_eq (j : Joined c p n l m B lo hi A q k) (x : ℕ) :
    count m x = Spans.holds (p, n) x + count l x := by
  rw [j.before, j.after, count_append, count_append, count_append, count_append, count_cons, j.holds]
  omega

theorem Joined.mem (j : Joined c p n l m B lo hi A q k) {f : ℕ × ℕ} (hf : f ∈ m) :
    f = (q, k) ∨ f ∈ l ∧ (f ∈ B ∨ f ∈ A) := by
  rw [j.after, List.mem_append, List.mem_cons] at hf
  rw [j.before]
  simp only [List.mem_append]
  tauto

theorem Joined.le (j : Joined c p n l m B lo hi A q k) : q ≤ p ∧ p + n ≤ q + k := by
  constructor
  · rcases j.lower with ⟨-, h⟩ | ⟨f, -, h, h', -⟩ <;> omega
  · rcases j.upper with ⟨-, h⟩ | ⟨f, -, h, h', -⟩ <;> omega

theorem Joined.below_le (j : Joined c p n l m B lo hi A q k)
    (hsorted : l.Pairwise fun f g => f.1 + f.2 ≤ g.1) {f : ℕ × ℕ} (hf : f ∈ B) : f.1 + f.2 ≤ q := by
  rcases j.lower with ⟨-, hq⟩ | ⟨g, hlo, hq, -⟩
  · rw [hq]
    exact (j.below f hf).1
  · rw [j.before] at hsorted
    rw [hq]
    exact (List.pairwise_append.mp hsorted).2.2 f hf g (by simp [hlo])

theorem Joined.le_above (j : Joined c p n l m B lo hi A q k)
    (hsorted : l.Pairwise fun f g => f.1 + f.2 ≤ g.1) {g : ℕ × ℕ} (hg : g ∈ A) : q + k ≤ g.1 := by
  rcases j.upper with ⟨-, hk⟩ | ⟨f, hhi, hk, -⟩
  · rw [hk]
    exact (j.above g hg).1
  · rw [j.before] at hsorted
    rw [hk]
    have hright := (List.pairwise_append.mp (List.pairwise_append.mp hsorted).2.1).2.1
    exact (List.pairwise_append.mp hright).2.2 f (by simp [hhi]) g hg

theorem Joined.sorted (j : Joined c p n l m B lo hi A q k)
    (hsorted : l.Pairwise fun f g => f.1 + f.2 ≤ g.1) : m.Pairwise fun f g => f.1 + f.2 ≤ g.1 := by
  have hle := j.le
  rw [j.after]
  refine List.pairwise_append.mpr ⟨?_, List.pairwise_cons.mpr ⟨fun g hg => j.le_above hsorted hg, ?_⟩,
    fun f hf g hg => ?_⟩
  · rw [j.before] at hsorted
    exact (List.pairwise_append.mp hsorted).1
  · rw [j.before] at hsorted
    exact (List.pairwise_append.mp (List.pairwise_append.mp (List.pairwise_append.mp hsorted).2.1).2.1).2.1
  · have := j.below_le hsorted hf
    rcases List.mem_cons.mp hg with hg | hg
    · rw [hg]
      exact this
    · have := j.le_above hsorted hg
      omega

end

/-- A span goes onto the free list. -/
theorem Sound.putFree {p n : ℕ} {node : Bool} {c : Code} (h : Sound s ((p, n) :: out)) (hc : c ∈ s.code)
    (hp : c.Holds (p, n)) (htop : bumpOf s.code = some c → p + n ≠ c.base + c.used)
    (hnode : node = true ∨ Touches c p n s.cfree) :
    Sound { s with cfree := Arena.putFree c p n node s.cfree } out := by
  have hpos : 0 < n := (h.inside (p, n) (by simp)).1
  have hfree : ∀ f ∈ s.cfree, 0 < f.2 := fun f hf => (h.inside f (by simp [hf])).1
  have hcx : ∀ x, p ≤ x → x < p + n → holds c.all x = 1 := fun x hx hx' => hp.mem hx hx'
  have hcfix : c.fixed = false := (h.holds_of_mem (List.mem_append_left _ List.mem_cons_self) hc
    (Nat.le_refl p) (by omega) (hcx p (Nat.le_refl p) (by omega))).1
  have hapart : ∀ f ∈ s.cfree, f.1 + f.2 ≤ p ∨ p + n ≤ f.1 := fun f hf => by
    refine apart_of_holds (f := f) (g := (p, n)) (hfree f hf) hpos fun x => ?_
    have honce := h.once x
    have := holds_le_count hf x
    rw [count_cons] at honce
    omega
  obtain ⟨B, lo, hi, A, q, k, j⟩ := putFree_joined h.sorted hfree hapart hnode
  generalize Arena.putFree c p n node s.cfree = m at j
  have hle := j.le
  -- the neighbours are the chunk's
  have hlo : ∀ f, lo = [f] → f ∈ s.cfree := fun f hf => by rw [j.before]; simp [hf]
  have hhi : ∀ g, hi = [g] → g ∈ s.cfree := fun g hg => by rw [j.before]; simp [hg]
  have hbase : c.base ≤ q := by
    rcases j.lower with ⟨-, hq⟩ | ⟨f, -, hq, -, hf⟩
    · exact hq ▸ hp.1
    · exact hq ▸ hf
  have hend : q + k ≤ c.base + c.len := by
    rcases j.upper with ⟨-, hk⟩ | ⟨g, hg, hk, hstart, hlen⟩
    · exact hk ▸ hp.2
    · have hgpos := hfree g (hhi g hg)
      have hcg : holds c.all g.1 = 1 := Spans.holds_of_mem (by have := hp.1; simp only [Code.all]; omega) hlen
      have := (h.holds_of_mem (List.mem_append_right _ (hhi g hg)) hc (Nat.le_refl _) (by omega) hcg).2.2
      omega
  have hunique : ∀ d ∈ s.code, ∀ x, q ≤ x → x < q + k → d.base ≤ x → x < d.base + d.len → d = c :=
    fun d hd x hx hx' hdx hdx' => chunk_unique h.apart hd hc (x := x) (Spans.holds_of_mem hdx hdx')
      (Spans.holds_of_mem (by simp only [Code.all]; omega) (by simp only [Code.all]; omega))
  refine ⟨h.apart, h.small, fun x => ?_, j.sorted h.sorted, fun f hf => ?_, fun d hd f hf g hg hdf hdg => ?_,
    fun d hd f hf hdf => ?_⟩
  · have := h.cover x
    rw [count_cons] at this
    show count out x + count m x + count (tail s.code) x = count (owned s.code) x
    rw [j.count_eq]
    omega
  · rcases List.mem_append.mp hf with hf | hf
    · exact h.inside f (by simp [hf])
    · rcases j.mem hf with hf | ⟨hf, -⟩
      · rw [hf]
        exact ⟨by show 0 < k; omega, c, hc, hcfix, hbase, hend⟩
      · exact h.inside f (by simp [hf])
  · rcases j.mem hf with hfq | ⟨hfl, hfBA⟩ <;> rcases j.mem hg with hgq | ⟨hgl, hgBA⟩
    · rw [hfq, hgq]
      show q + k ≠ q
      omega
    · rw [hfq] at hdf ⊢
      show q + k ≠ g.1
      intro htouch
      rcases hgBA with hgB | hgA
      · have := j.below_le h.sorted hgB
        have := hfree g hgl
        omega
      · rcases j.upper with ⟨hnil, hk⟩ | ⟨g₀, hg₀, hk, -⟩
        · have hdc := hunique d hd q (Nat.le_refl q) (by omega) hdf (by omega)
          exact (j.above g hgA).2 hnil (hdc ▸ hdg) (by omega)
        · have hg₀q : q ≤ g₀.1 := by
            rcases j.upper with ⟨hnil, -⟩ | ⟨g₁, hg₁, -, hg₁p, -⟩
            · rw [hnil] at hg₀
              cases hg₀
            · rw [hg₁] at hg₀
              cases hg₀
              omega
          exact h.coalesced d hd g₀ (hhi g₀ hg₀) g hgl (Nat.le_trans hdf hg₀q) hdg (by omega)
    · rw [hgq] at hdg ⊢
      show f.1 + f.2 ≠ q
      intro htouch
      rcases hfBA with hfB | hfA
      · have hdc := hunique d hd q (Nat.le_refl q) (by omega) (by omega) hdg
        rcases j.lower with ⟨hnil, hq⟩ | ⟨f₀, hf₀, hq, -⟩
        · exact (j.below f hfB).2 hnil (hdc ▸ hdf) (by omega)
        · exact h.coalesced d hd f hfl f₀ (hlo f₀ hf₀) hdf (hq ▸ hdg) (by omega)
      · have := j.le_above h.sorted hfA
        omega
    · exact h.coalesced d hd f hfl g hgl hdf hdg
  · rcases j.mem hf with hfq | ⟨hfl, -⟩
    · rw [hfq] at hdf ⊢
      show q + k ≠ d.base + d.used
      intro htouch
      have hdmem : d ∈ s.code := List.mem_of_find?_eq_some hd
      have hdused := (h.small d hdmem).2.1
      have hdc := hunique d hdmem q (Nat.le_refl q) (by omega) hdf (by omega)
      rcases j.upper with ⟨-, hk⟩ | ⟨g, hg, hk, hstart, -⟩
      · exact htop (hdc ▸ hd) (by rw [hdc] at htouch; omega)
      · exact h.top d hd g (hhi g hg) (by omega) (by omega)
    · exact h.top d hd f hfl hdf

/-! ### The bump chunk's top -/

/-- The bump chunk's top moves to `u`, what is below and above changing hands. -/
theorem Sound.moved {pre post : List Code} {c : Code} {u : ℕ} {out' l : List (ℕ × ℕ)} (h : Sound s out)
    (hcode : s.code = pre ++ c :: post) (hpre : ∀ d ∈ pre, d.fixed = true) (hc : c.fixed = false)
    (hu : u ≤ c.len)
    (hcount : ∀ x, count out' x + count l x + holds (c.base + u, c.len - u) x =
      count out x + count s.cfree x + holds c.tail x)
    (hsub : l.Sublist s.cfree) (hout : ∀ f ∈ out', f ∈ out ∨ 0 < f.2 ∧ c.Holds f)
    (htop : ∀ f ∈ l, c.base ≤ f.1 → f.1 + f.2 ≠ c.base + u) :
    Sound (setUsed { s with cfree := l } pre.length u) out' := by
  have hcode' : (setUsed { s with cfree := l } pre.length u).code = pre ++ { c with used := u } :: post :=
    setUsed_split (s := { s with cfree := l }) hcode u
  have hbump' : bumpOf (setUsed { s with cfree := l } pre.length u).code = some { c with used := u } := by
    rw [hcode']
    exact bumpOf_split hpre hc
  have hbump : bumpOf s.code = some c := by rw [hcode, bumpOf_split hpre hc]
  have hmem : c ∈ s.code := by simp [hcode]
  -- a chunk is where it was
  have hmoved : ∀ d ∈ (setUsed { s with cfree := l } pre.length u).code,
      ∃ d' ∈ s.code, d'.base = d.base ∧ d'.len = d.len := fun d hd => by
    rw [hcode', List.mem_append, List.mem_cons] at hd
    rcases hd with hd | hd | hd
    · exact ⟨d, by simp [hcode, hd], rfl, rfl⟩
    · exact ⟨c, hmem, by rw [hd], by rw [hd]⟩
    · exact ⟨d, by simp [hcode, hd], rfl, rfl⟩
  have hback : ∀ d ∈ s.code, ∃ d' ∈ (setUsed { s with cfree := l } pre.length u).code,
      d'.base = d.base ∧ d'.len = d.len ∧ d'.fixed = d.fixed := fun d hd => by
    rw [hcode, List.mem_append, List.mem_cons] at hd
    rw [hcode']
    rcases hd with hd | hd | hd
    · exact ⟨d, by simp [hd], rfl, rfl, rfl⟩
    · exact ⟨{ c with used := u }, by simp, by rw [hd], by rw [hd], by rw [hd]⟩
    · exact ⟨d, by simp [hd], rfl, rfl, rfl⟩
  have hholds : ∀ f, (0 < f.2 ∧ ∃ d ∈ s.code, d.fixed = false ∧ d.Holds f) →
      0 < f.2 ∧ ∃ d ∈ (setUsed { s with cfree := l } pre.length u).code, d.fixed = false ∧ d.Holds f :=
    fun f ⟨hf, d, hd, hdfix, hdf⟩ => by
      obtain ⟨d', hd', hbase, hlen, hfix⟩ := hback d hd
      exact ⟨hf, d', hd', by rw [hfix, hdfix], by rw [Code.Holds, hbase, hlen]; exact hdf⟩
  refine ⟨fun x => ?_, fun d hd => ?_, fun x => ?_, h.sorted.sublist hsub, fun f hf => hholds f ?_,
    fun d hd f hf g hg hdf hdg => ?_, fun d hd f hf hdf => ?_⟩
  · rw [hcode', all_used, ← hcode]
    exact h.apart x
  · rw [hcode', List.mem_append, List.mem_cons] at hd
    rcases hd with hd | hd | hd
    · exact h.small d (by simp [hcode, hd])
    · rw [hd]
      exact ⟨(h.small c hmem).1, hu, (h.small c hmem).2.2⟩
    · exact h.small d (by simp [hcode, hd])
  · have hcover := h.cover x
    have hnew := hcount x
    rw [tail, hbump] at hcover
    rw [tail, hbump', hcode', owned_used, ← hcode]
    show count out' x + count l x + count [(c.base + u, c.len - u)] x = _
    simp only [Option.map_some, Option.toList_some, count_cons, count_nil, Nat.add_zero] at hcover ⊢
    omega
  · rcases List.mem_append.mp hf with hf | hf
    · rcases hout f hf with hf | ⟨hf, hcf⟩
      · exact h.inside f (by simp [hf])
      · exact ⟨hf, c, hmem, hc, hcf⟩
    · exact h.inside f (List.mem_append_right _ (hsub.subset hf))
  · obtain ⟨d', hd', hbase, hlen⟩ := hmoved d hd
    rw [← hbase] at hdf
    rw [← hbase, ← hlen] at hdg
    exact h.coalesced d' hd' f (hsub.subset hf) g (hsub.subset hg) hdf hdg
  · rw [hbump'] at hd
    cases hd
    exact htop f hf hdf

theorem takeEnding_cases (top : ℕ) (l : List (ℕ × ℕ)) :
    takeEnding top l = (none, l) ∧ (∀ f ∈ l, f.1 + f.2 ≠ top) ∨
      ∃ pre f post, l = pre ++ f :: post ∧ takeEnding top l = (some f.2, pre ++ post) ∧ f.1 + f.2 = top := by
  induction l with
  | nil => exact Or.inl ⟨rfl, by simp⟩
  | cons f l ih =>
      rw [takeEnding]
      by_cases hf : f.1 + f.2 = top
      · rw [if_pos hf]
        exact Or.inr ⟨[], f, l, rfl, rfl, hf⟩
      · rw [if_neg hf]
        rcases ih with ⟨hr, hl⟩ | ⟨pre, g, post, hl, hr, hg⟩
        · refine Or.inl ⟨by rw [hr], fun g hg => ?_⟩
          rcases List.mem_cons.mp hg with hgf | hg
          · rw [hgf]
            exact hf
          · exact hl g hg
        · exact Or.inr ⟨f :: pre, g, post, by rw [hl, List.cons_append], by rw [hr, List.cons_append], hg⟩

theorem sub64_eq {a b : ℕ} (h : b ≤ a) (ha : a - b < 2 ^ 64) : sub64 a b = a - b := by
  have : a + 2 ^ 64 - b = a - b + 2 ^ 64 := by omega
  rw [sub64, this, Nat.add_mod_right, Nat.mod_eq_of_lt ha]

/-- The bump's top comes down over the span. -/
theorem Sound.retract {p n : ℕ} {pre post : List Code} {c : Code} (h : Sound s ((p, n) :: out))
    (hcode : s.code = pre ++ c :: post) (hpre : ∀ d ∈ pre, d.fixed = true) (hc : c.fixed = false)
    (hp : c.Holds (p, n)) (hend : p + n = c.base + c.used)
    (hempty : c.used = n → ∀ f ∈ s.cfree, f.1 + f.2 ≠ c.base) :
    Sound (Arena.retract s pre.length c n) out := by
  have hmem : c ∈ s.code := by simp [hcode]
  obtain ⟨hlen, hused, hsmall⟩ := h.small c hmem
  have hbase : c.base ≤ p := hp.1
  have hpos : 0 < n := (h.inside (p, n) (by simp)).1
  have hsub : sub64 c.used n = c.used - n := sub64_eq (by omega) (by omega)
  have hout : ∀ f ∈ out, f ∈ (p, n) :: out ∨ 0 < f.2 ∧ c.Holds f :=
    fun f hf => Or.inl (List.mem_cons_of_mem _ hf)
  have htail : ∀ x, holds (p, c.base + c.len - p) x = holds (p, n) x + holds c.tail x := fun x => by
    have hk : c.base + c.len - p = n + (c.len - c.used) := by omega
    rw [hk, holds_add, hend, Code.tail]
  rw [Arena.retract]
  simp only [hsub]
  rcases takeEnding_cases (c.base + (c.used - n)) s.cfree with ⟨hr, hl⟩ | ⟨l, f, l', hl, hr, hf⟩
  · rw [hr]
    refine h.moved hcode hpre hc (u := c.used - n) (by omega) (fun x => ?_) (List.Sublist.refl _) hout
      fun f hf _ => hl f hf
    have hbeg : (c.base + (c.used - n), c.len - (c.used - n)) = (p, c.base + c.len - p) := by
      rw [Prod.mk.injEq]
      omega
    rw [hbeg, htail, count_cons]
    show _ + count s.cfree x + _ = _
    omega
  · have hfl : f ∈ s.cfree := by simp [hl]
    have hfpos := (h.inside f (List.mem_append_right _ hfl)).1
    -- the span below ends inside the chunk, so it is the chunk's
    have hne : c.used ≠ n := fun he => hempty he f hfl (by omega)
    have hcx : holds c.all (p - 1) = 1 := Spans.holds_of_mem (by simp only [Code.all]; omega)
      (by simp only [Code.all]; omega)
    have hcf := (h.holds_of_mem (List.mem_append_right _ hfl) hmem (x := p - 1) (by omega) (by omega) hcx).2.1
    have hsub' : sub64 (c.used - n) f.2 = c.used - n - f.2 := sub64_eq (by omega) (by omega)
    rw [hr]
    simp only [hsub']
    refine h.moved hcode hpre hc (u := c.used - n - f.2) (by omega) (fun x => ?_) ?_ hout fun g hg hcg => ?_
    · have hbeg : (c.base + (c.used - n - f.2), c.len - (c.used - n - f.2)) =
          (f.1, f.2 + (c.base + c.len - p)) := by
        rw [Prod.mk.injEq]
        omega
      have hfp : f.1 + f.2 = p := by omega
      rw [hbeg, holds_add, hfp, htail, count_cons, hl, count_append, count_append, count_cons]
      show _ + (holds f x + _) = _
      omega
    · rw [hl]
      exact (List.sublist_cons_self f l').append_left l
    · have hgl : g ∈ s.cfree := by
        rw [hl]
        exact ((List.sublist_cons_self f l').append_left l).subset hg
      have := h.coalesced c hmem g hgl f hfl hcg (by omega)
      omega

/-! ### A release -/

/-- A release that accounts for what it is given: it does not empty the bump chunk above
another chunk's free span, and where the span joins no neighbour there is a node for it. -/
def CleanRelease (s : Core) (p n : ℕ) (node : Bool) : Prop :=
  ∀ i c, chunkOf s p = some i → s.code[i]? = some c →
    if codeBump s = some i ∧ p + n = c.base + c.used then c.used = n → ∀ f ∈ s.cfree, f.1 + f.2 ≠ c.base
    else node = true ∨ Touches c p n s.cfree

theorem chunkOf_spec {p i : ℕ} (h : chunkOf s p = some i) :
    ∃ c ∈ s.code, s.code[i]? = some c ∧ c.base ≤ p ∧ p < c.base + c.len := by
  obtain ⟨hi, hc, -⟩ := List.findIdx?_eq_some_iff_getElem.mp h
  exact ⟨s.code[i], List.getElem_mem hi, List.getElem?_eq_getElem hi, by simpa using hc⟩

theorem chunkOf_isSome {p : ℕ} {c : Code} (hc : c ∈ s.code) (hp : c.base ≤ p) (hp' : p < c.base + c.len) :
    ∃ i, chunkOf s p = some i := by
  refine Option.isSome_iff_exists.mp ?_
  rw [chunkOf, List.findIdx?_isSome]
  exact List.any_eq_true.mpr ⟨c, hc, by simp [hp, hp']⟩

/-- A span that is out comes back. -/
theorem Sound.release {p n : ℕ} {node : Bool} (h : Sound s ((p, n) :: out)) (hclean : CleanRelease s p n node) :
    Sound (codeRelease s p n node) out := by
  obtain ⟨hpos, d, hd, hdfix, hdp⟩ := h.inside (p, n) (by simp)
  have hlen : p < d.base + d.len := Nat.lt_of_lt_of_le (Nat.lt_add_of_pos_right hpos) hdp.2
  obtain ⟨i, hi⟩ := chunkOf_isSome hd hdp.1 hlen
  obtain ⟨c, hc, hget, hbase, htop⟩ := chunkOf_spec hi
  have heq : c = d := chunk_unique h.apart hc hd (Spans.holds_of_mem hbase htop)
    (Spans.holds_of_mem hdp.1 hlen)
  subst heq
  have hcond := hclean i c hi hget
  rw [codeRelease]
  simp only [hi, hget]
  split at hcond
  next hbump =>
    obtain ⟨pre, c', post, hcode, hpre, hfixed, -⟩ := bump_split hbump.1
    rw [hcode, ← hpre, List.getElem?_append_right (Nat.le_refl _), Nat.sub_self] at hget
    cases hget
    rw [if_pos hbump, ← hpre]
    exact h.retract hcode hfixed hdfix hdp hbump.2 hcond
  next hbump =>
    rw [if_neg hbump]
    refine h.putFree hc hdp (fun hb htop' => hbump ⟨?_, htop'⟩) hcond
    rw [← (chunkOf_bump h.apart hb hbase htop).1, hi]

end LoveRuntime.Arena
