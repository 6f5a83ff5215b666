import LoveRuntime.Verification.Arena.Release

/-! A seat for a blob goes out of the arena: off the free list, off the bump chunk, or off a
chunk newly mapped. -/

namespace LoveRuntime.Arena

open Spans

variable {s : Core} {out : List (ℕ × ℕ)}

/-- The first span with room. -/
def firstFit (need : ℕ) (l : List (ℕ × ℕ)) : Option (ℕ × ℕ) := l.find? fun f => decide (need ≤ f.2)

theorem takeFit_none {need : ℕ} {l : List (ℕ × ℕ)} (h : firstFit need l = none) : takeFit need l = none := by
  induction l with
  | nil => rfl
  | cons f l ih =>
      rw [firstFit, List.find?_cons] at h
      split at h
      next => cases h
      next hf =>
        rw [takeFit, if_neg (by simpa using hf), ih h, Option.map_none]

theorem takeFit_some {need : ℕ} {l : List (ℕ × ℕ)} {f : ℕ × ℕ} (h : firstFit need l = some f) :
    need ≤ f.2 ∧ ∃ pre post, l = pre ++ f :: post ∧
      takeFit need l = if 32 ≤ f.2 - need then some (f.1, need, pre ++ (f.1 + need, f.2 - need) :: post)
        else some (f.1, f.2, pre ++ post) := by
  induction l with
  | nil => cases h
  | cons g l ih =>
      rw [firstFit, List.find?_cons] at h
      split at h
      next hg =>
        cases h
        have hf : need ≤ f.2 := by simpa using hg
        exact ⟨hf, [], l, rfl, by rw [takeFit, if_pos hf]; rfl⟩
      next hg =>
        obtain ⟨hf, pre, post, hl, htake⟩ := ih h
        refine ⟨hf, g :: pre, post, by rw [hl, List.cons_append], ?_⟩
        rw [takeFit, if_neg (by simpa using hg), htake]
        split <;> rfl

/-! ### Off the free list -/

/-- A free span goes out whole. -/
theorem Sound.takeWhole {pre post : List (ℕ × ℕ)} {f : ℕ × ℕ} (h : Sound s out)
    (hl : s.cfree = pre ++ f :: post) : Sound { s with cfree := pre ++ post } (f :: out) := by
  have hsub : (pre ++ post).Sublist s.cfree := by
    rw [hl]
    exact (List.sublist_cons_self f post).append_left pre
  have hf : f ∈ s.cfree := by simp [hl]
  refine ⟨h.apart, h.small, fun x => ?_, h.sorted.sublist hsub, fun g hg => ?_,
    fun d hd g hg k hk => h.coalesced d hd g (hsub.subset hg) k (hsub.subset hk),
    fun d hd g hg => h.top d hd g (hsub.subset hg)⟩
  · have := h.cover x
    rw [hl, count_append, count_cons] at this
    show count (f :: out) x + count (pre ++ post) x + count (tail s.code) x =
      count (owned s.code) x
    rw [count_cons, count_append]
    omega
  · rcases List.mem_append.mp hg with hg | hg
    · rcases List.mem_cons.mp hg with hgf | hg
      · exact hgf ▸ h.inside f (List.mem_append_right _ hf)
      · exact h.inside g (List.mem_append_left _ hg)
    · exact h.inside g (List.mem_append_right _ (hsub.subset hg))

/-- The lower part of a free span goes out. -/
theorem Sound.takePart {pre post : List (ℕ × ℕ)} {f : ℕ × ℕ} {k : ℕ} (h : Sound s out)
    (hl : s.cfree = pre ++ f :: post) (hk : 0 < k) (hkf : k < f.2) :
    Sound { s with cfree := pre ++ (f.1 + k, f.2 - k) :: post } ((f.1, k) :: out) := by
  have hf : f ∈ s.cfree := by simp [hl]
  have hsorted := h.sorted
  rw [hl, List.pairwise_append] at hsorted
  obtain ⟨hpre, hpost, hcross⟩ := hsorted
  obtain ⟨hfpost, hpost⟩ := List.pairwise_cons.mp hpost
  obtain ⟨-, c, hc, hcfix, hcf⟩ := h.inside f (List.mem_append_right _ hf)
  have hmem : ∀ g ∈ pre ++ (f.1 + k, f.2 - k) :: post, g = (f.1 + k, f.2 - k) ∨
      g ∈ s.cfree ∧ (g.1 + g.2 ≤ f.1 ∨ f.1 + f.2 ≤ g.1) := fun g hg => by
    rcases List.mem_append.mp hg with hg | hg
    · exact Or.inr ⟨by simp [hl, hg], Or.inl (hcross g hg f List.mem_cons_self)⟩
    · rcases List.mem_cons.mp hg with hg | hg
      · exact Or.inl hg
      · exact Or.inr ⟨by simp [hl, hg], Or.inr (hfpost g hg)⟩
  -- a chunk that reaches past the cut holds the span
  have hreach : ∀ d ∈ s.code, d.base ≤ f.1 + k → f.1 + k < d.base + d.len → d.base ≤ f.1 := fun d hd hb ht =>
    (h.holds_of_mem (List.mem_append_right _ hf) hd (x := f.1 + k) (by omega) (by omega)
      (Spans.holds_of_mem hb ht)).2.1
  refine ⟨h.apart, h.small, fun x => ?_, ?_, fun g hg => ?_, fun d hd g hg g' hg' hdg hdg' => ?_,
    fun d hd g hg hdg => ?_⟩
  · have := h.cover x
    have hcut := holds_add f.1 k (f.2 - k) x
    have hfk : k + (f.2 - k) = f.2 := by omega
    rw [hfk] at hcut
    rw [hl, count_append, count_cons] at this
    show count ((f.1, k) :: out) x + count (pre ++ (f.1 + k, f.2 - k) :: post) x + count (tail s.code) x =
      count (owned s.code) x
    rw [count_cons, count_append, count_cons]
    have hff : holds f x = holds (f.1, f.2) x := rfl
    omega
  · refine List.pairwise_append.mpr ⟨hpre, List.pairwise_cons.mpr ⟨fun g hg => ?_, hpost⟩, fun g hg g' hg' => ?_⟩
    · have := hfpost g hg
      show f.1 + k + (f.2 - k) ≤ g.1
      omega
    · rcases List.mem_cons.mp hg' with hg' | hg'
      · have := hcross g hg f List.mem_cons_self
        rw [hg']
        show g.1 + g.2 ≤ f.1 + k
        omega
      · exact hcross g hg g' (List.mem_cons_of_mem _ hg')
  · rcases List.mem_append.mp hg with hg | hg
    · rcases List.mem_cons.mp hg with hg | hg
      · rw [hg]
        exact ⟨hk, c, hc, hcfix, hcf.1, Nat.le_trans (Nat.add_le_add_left (Nat.le_of_lt hkf) _) hcf.2⟩
      · exact h.inside g (List.mem_append_left _ hg)
    · rcases hmem g hg with hg | ⟨hg, -⟩
      · rw [hg]
        refine ⟨by show 0 < f.2 - k; omega, c, hc, hcfix, Nat.le_trans hcf.1 (Nat.le_add_right _ _), ?_⟩
        have := hcf.2
        show f.1 + k + (f.2 - k) ≤ c.base + c.len
        omega
      · exact h.inside g (List.mem_append_right _ hg)
  · rcases hmem g hg with hgf | ⟨hgl, hgf⟩ <;> rcases hmem g' hg' with hgf' | ⟨hgl', hgf'⟩
    · rw [hgf, hgf']
      show f.1 + k + (f.2 - k) ≠ f.1 + k
      omega
    · rw [hgf] at hdg ⊢
      show f.1 + k + (f.2 - k) ≠ g'.1
      intro htouch
      exact h.coalesced d hd f hf g' hgl' (hreach d hd hdg (by omega)) hdg' (by omega)
    · rw [hgf']
      show g.1 + g.2 ≠ f.1 + k
      omega
    · exact h.coalesced d hd g hgl g' hgl' hdg hdg'
  · rcases hmem g hg with hgf | ⟨hgl, -⟩
    · rw [hgf] at hdg ⊢
      show f.1 + k + (f.2 - k) ≠ d.base + d.used
      intro htouch
      have hdmem : d ∈ s.code := List.mem_of_find?_eq_some hd
      have := (h.small d hdmem).2.1
      exact h.top d hd f hf (hreach d hdmem hdg (by omega)) (by omega)
    · exact h.top d hd g hgl hdg

/-! ### Off the bump chunk -/

/-- A free span of the bump chunk is below its top. -/
theorem Sound.free_lt {c : Code} {f : ℕ × ℕ} (h : Sound s out) (hc : bumpOf s.code = some c) (hf : f ∈ s.cfree)
    (hbase : c.base ≤ f.1) (hlen : f.1 < c.base + c.len) : f.1 + f.2 < c.base + c.used := by
  have hpos := (h.inside f (List.mem_append_right _ hf)).1
  have hcf := (h.holds_of_mem (List.mem_append_right _ hf) (List.mem_of_find?_eq_some hc) (Nat.le_refl _)
    (by omega) (Spans.holds_of_mem hbase hlen)).2.2
  have htop := h.top c hc f hf hbase
  by_contra hge
  have honce := h.once (f.1 + f.2 - 1)
  have hfree := holds_le_count hf (f.1 + f.2 - 1)
  rw [Spans.holds_of_mem (f := f) (by omega) (by omega)] at hfree
  rw [tail, hc] at honce
  simp only [Option.map_some, Option.toList_some, count_cons, count_nil, Code.tail] at honce
  rw [Spans.holds_of_mem (f := (c.base + c.used, c.len - c.used)) (by show c.base + c.used ≤ _; omega)
    (by show _ < c.base + c.used + (c.len - c.used); omega)] at honce
  omega

/-- The bottom of the bump chunk's tail goes out. -/
theorem Sound.takeBump {need : ℕ} {c : Code} (h : Sound s out) (hc : bumpOf s.code = some c) (hneed : 0 < need)
    (hroom : need ≤ c.len - c.used) :
    ∃ t, Arena.takeBump s need = some (c.base + c.used, need, t) ∧ Sound t ((c.base + c.used, need) :: out) ∧
      t.span = s.span ∧ t.cfree = s.cfree ∧ bumpOf t.code = some { c with used := c.used + need } := by
  obtain ⟨pre, post, hcode, hpre, hcfix, hbump, hget⟩ := bump_get hc
  have hmem : c ∈ s.code := by simp [hcode]
  obtain ⟨hlen, hused, hsmall⟩ := h.small c hmem
  have hmod : (c.base + c.used) % 2 ^ 64 = c.base + c.used := Nat.mod_eq_of_lt (by omega)
  refine ⟨setUsed s pre.length (c.used + need), by
    simp only [Arena.takeBump, hbump, hget, hmod, Option.map_some], ?_, rfl, rfl, ?_⟩
  · refine h.moved (l := s.cfree) hcode hpre hcfix (by omega) (fun x => ?_) (List.Sublist.refl _)
      (fun f hf => ?_) fun f hf _ hend => ?_
    · have hcut := holds_add (c.base + c.used) need (c.len - (c.used + need)) x
      have hk : need + (c.len - (c.used + need)) = c.len - c.used := by omega
      rw [hk] at hcut
      rw [count_cons, Code.tail, hcut, Nat.add_assoc c.base]
      omega
    · rcases List.mem_cons.mp hf with hf | hf
      · rw [hf]
        refine Or.inr ⟨hneed, Nat.le_add_right _ _, ?_⟩
        show c.base + c.used + need ≤ c.base + c.len
        omega
      · exact Or.inl hf
    · have := h.free_lt hc hf ‹_› (by
        have := (h.inside f (List.mem_append_right _ hf)).1
        omega)
      omega
  · rw [setUsed_split hcode]
    exact bumpOf_split hpre hcfix

/-! ### Off a chunk newly mapped -/

/-- The pages at `b` are none of the arena's. -/
def Fresh (s : Core) (b len : ℕ) : Prop :=
  0 < b ∧ b + len ≤ 2 ^ 64 ∧ ∀ c ∈ s.code, b + len ≤ c.base ∨ c.base + c.len ≤ b

theorem releaseTail_full {node : Bool} (h : ∀ c, bumpOf s.code = some c → c.used = c.len) :
    releaseTail s node = s := by
  rw [releaseTail]
  split
  next => rfl
  next i hi =>
    split
    next => rfl
    next c hget =>
      have := h c (bumpOf_get hi hget)
      rw [if_neg (by omega)]

/-- A chunk is mapped over a full one. -/
theorem Sound.mapped {b len : ℕ} (h : Sound s out) (hfull : ∀ c, bumpOf s.code = some c → c.used = c.len)
    (hfresh : Fresh s b len) (hlen : 0 < len) :
    Sound { s with code := ⟨b, len, 0, false⟩ :: s.code } out := by
  obtain ⟨hpos, hsmall, hapart⟩ := hfresh
  have hbump : bumpOf (⟨b, len, 0, false⟩ :: s.code) = some ⟨b, len, 0, false⟩ := rfl
  have hclear : ∀ f ∈ s.cfree, f.1 < b ∨ b + len ≤ f.1 := fun f hf => by
    obtain ⟨hpos, c, hc, -, hcf⟩ := h.inside f (List.mem_append_right _ hf)
    have h1 := hcf.1
    have h2 := hcf.2
    have := hapart c hc
    omega
  have hout : ∀ x, b ≤ x → x < b + len → count (s.code.map Code.all) x = 0 := fun x hx hx' => by
    rw [count, List.sum_eq_zero]
    intro y hy
    obtain ⟨g, hg, rfl⟩ := List.mem_map.mp hy
    obtain ⟨c, hc, rfl⟩ := List.mem_map.mp hg
    have := hapart c hc
    exact holds_of_not (by simp only [Code.all]; omega)
  refine ⟨fun x => ?_, fun d hd => ?_, fun x => ?_, h.sorted, fun f hf => ?_, fun d hd f hf g hg hdf hdg => ?_,
    fun d hd f hf hdf => ?_⟩
  · have hx := h.apart x
    rw [List.map_cons, count_cons]
    by_cases hin : b ≤ x ∧ x < b + len
    · rw [hout x hin.1 hin.2]
      have := holds_le_one (Code.all ⟨b, len, 0, false⟩) x
      omega
    · have : holds (Code.all ⟨b, len, 0, false⟩) x = 0 :=
        holds_of_not (by simp only [Code.all]; omega)
      omega
  · rcases List.mem_cons.mp hd with hd | hd
    · rw [hd]
      exact ⟨hlen, Nat.zero_le _, hsmall, hpos⟩
    · exact h.small d hd
  · have hcover := h.cover x
    have htail : count (tail s.code) x = 0 := by
      rw [tail]
      cases hb : bumpOf s.code with
      | none => rfl
      | some c =>
          simp only [Option.map_some, Option.toList_some, count_cons, count_nil, Code.tail, hfull c hb,
            Nat.sub_self, holds_zero, Nat.add_zero]
    show count out x + count s.cfree x + count (tail (⟨b, len, 0, false⟩ :: s.code)) x = _
    rw [tail, hbump, owned, List.filter_cons_of_pos rfl, List.map_cons, count_cons]
    rw [owned] at hcover
    simp only [Option.map_some, Option.toList_some, count_cons, count_nil, Code.tail, Code.all,
      Nat.add_zero, Nat.sub_zero]
    omega
  · obtain ⟨hpos, c, hc, hrest⟩ := h.inside f hf
    exact ⟨hpos, c, List.mem_cons_of_mem _ hc, hrest⟩
  · rcases List.mem_cons.mp hd with hd | hd
    · rw [hd] at hdf hdg
      have := (h.inside f (List.mem_append_right _ hf)).1
      have := hclear f hf
      simp only at hdf hdg
      intro htouch
      omega
    · exact h.coalesced d hd f hf g hg hdf hdg
  · rw [hbump] at hd
    cases hd
    have := (h.inside f (List.mem_append_right _ hf)).1
    simp only at hdf ⊢
    omega

/-! ### A seat -/

/-- The pages the chunk for `need` takes. -/
def chunkLen (ps need : ℕ) : ℕ := pageRound ps (if codeChunkSize < need then need else codeChunkSize)

theorem le_pageRound {ps : ℕ} (hps : 0 < ps) (n : ℕ) : n ≤ pageRound ps n := by
  have h := Nat.div_add_mod (n + ps - 1) ps
  have hlt := Nat.mod_lt (n + ps - 1) hps
  rw [Nat.mul_comm] at h
  rw [pageRound]
  omega

theorem le_chunkLen {ps : ℕ} (hps : 0 < ps) (need : ℕ) : need ≤ chunkLen ps need := by
  have h := le_pageRound hps (if codeChunkSize < need then need else codeChunkSize)
  exact Nat.le_trans (by split <;> omega) h

/-- The steps of an install that account for every byte: a chunk is mapped only over a full
one, and a seat that is given back neither needs a node that is refused nor empties the bump
chunk above another chunk's free span. -/
structure CleanInstall (s : Core) (need : ℕ) (e : Answers) : Prop where
  whole : ∀ f, firstFit need s.cfree = some f → (e.opens && e.seals) = true ∨ 32 ≤ f.2 - need ∨ e.node = true
  bump : firstFit need s.cfree = none → ∀ c, bumpOf s.code = some c → need ≤ c.len - c.used →
    (e.opens && e.seals) = true ∨ c.used ≠ 0 ∨ ∀ f ∈ s.cfree, f.1 + f.2 ≠ c.base
  full : firstFit need s.cfree = none → ∀ c, bumpOf s.code = some c → c.len - c.used < need →
    ∀ b, e.map = some b → e.cell = true → c.used = c.len
  above : firstFit need s.cfree = none → (∀ c, bumpOf s.code = some c → c.len - c.used < need) →
    ∀ b, e.map = some b → e.cell = true → (e.opens && e.seals) = true ∨ ∀ f ∈ s.cfree, f.1 + f.2 ≠ b

/-- What a seat leaves. -/
structure Seated (s t : Core) (out : List (ℕ × ℕ)) (p span need : ℕ) (e : Answers) : Prop where
  sound : Sound t ((p, span) :: out)
  le : need ≤ span
  spans : t.span = s.span
  back : (e.opens && e.seals) = true ∨ CleanRelease t p span e.node

theorem seat_bump {need : ℕ} {e : Answers} {c : Code} (hs : 0 < need) (h : Sound s out)
    (hc : bumpOf s.code = some c) (hroom : need ≤ c.len - c.used)
    (hback : (e.opens && e.seals) = true ∨ c.used ≠ 0 ∨ ∀ f ∈ s.cfree, f.1 + f.2 ≠ c.base) :
    ∃ p span t, takeBump s need = some (p, span, t) ∧ Seated s t out p span need e := by
  obtain ⟨t, htake, hsound, hspan, hcfree, hbump⟩ := h.takeBump hc hs hroom
  refine ⟨c.base + c.used, need, t, htake, hsound, Nat.le_refl _, hspan, hback.imp_right fun hback i d hi hd => ?_⟩
  obtain ⟨hlen, hused, -⟩ := h.small c (List.mem_of_find?_eq_some hc)
  obtain ⟨hi', hget⟩ := chunkOf_bump hsound.apart hbump (p := c.base + c.used) (Nat.le_add_right _ _)
    (by show _ < c.base + c.len; omega)
  rw [hi] at hi'
  have hget := hget i hi'.symm
  rw [hd] at hget
  cases hget
  rw [if_pos ⟨hi'.symm, by simp only; omega⟩, hcfree]
  intro hz
  exact hback.resolve_left (by simp only at hz; omega)

/-- Off the free list. -/
theorem seat_fit {need : ℕ} {e : Answers} {f : ℕ × ℕ} (hs : 0 < need) (h : Sound s out)
    (hfit : firstFit need s.cfree = some f)
    (hback : (e.opens && e.seals) = true ∨ 32 ≤ f.2 - need ∨ e.node = true) :
    ∃ p span l, takeFit need s.cfree = some (p, span, l) ∧
      Seated s { s with cfree := l } out p span need e := by
  obtain ⟨hneed, pre, post, hl, htake⟩ := takeFit_some hfit
  have hf : f ∈ s.cfree := by simp [hl]
  -- a span given back does not end at the bump's top
  have htop : ∀ l k i d, k ≤ f.2 → chunkOf { s with cfree := l } f.1 = some i → s.code[i]? = some d →
      ¬ (codeBump { s with cfree := l } = some i ∧ f.1 + k = d.base + d.used) := fun l k i d hk hi hd hb => by
    obtain ⟨d', hd', hget, hbase, hlen⟩ := chunkOf_spec hi
    rw [hd] at hget
    cases hget
    have := h.free_lt (bumpOf_get (s := s) hb.1 hd) hf hbase hlen
    omega
  by_cases hpart : 32 ≤ f.2 - need
  · rw [if_pos hpart] at htake
    have hsound := h.takePart hl hs (by omega)
    refine ⟨_, _, _, htake, hsound, Nat.le_refl _, rfl, Or.inr fun i d hi hd => ?_⟩
    rw [if_neg (htop _ _ i d hneed hi hd)]
    obtain ⟨d', hd', hget, hbase, hlen⟩ := chunkOf_spec hi
    rw [hd] at hget
    cases hget
    have := (h.holds_of_mem (List.mem_append_right _ hf) hd' (Nat.le_refl _) (by omega)
      (Spans.holds_of_mem hbase hlen)).2.2
    exact Or.inr ⟨(f.1 + need, f.2 - need), by simp, Or.inr ⟨rfl, by show f.1 + need < _; omega⟩⟩
  · rw [if_neg hpart] at htake
    have hsound := h.takeWhole hl
    refine ⟨_, _, _, htake, hsound, hneed, rfl, hback.imp_right fun hback i d hi hd => ?_⟩
    rw [if_neg (htop _ _ i d (Nat.le_refl _) hi hd)]
    exact Or.inl (hback.resolve_left hpart)

theorem bump_bind (s : Core) : ((codeBump s).bind fun i => s.code[i]?) = bumpOf s.code := by
  cases hb : codeBump s with
  | none =>
      have := List.findIdx?_eq_none_iff.mp hb
      exact (List.find?_eq_none.mpr fun c hc => by simp [this c hc]).symm
  | some i =>
      obtain ⟨pre, c, post, hcode, hlen, hpre, hc⟩ := bump_split hb
      rw [Option.bind_some, hcode, bumpOf_split hpre hc, ← hlen, List.getElem?_append_right (Nat.le_refl _),
        Nat.sub_self, List.getElem?_cons_zero]

/-- Off a chunk newly mapped. -/
theorem seat_chunk {ps need : ℕ} {e : Answers} (hps : 0 < ps) (hs : 0 < need) (h : Sound s out)
    (hfull : ∀ c, bumpOf s.code = some c → ∀ b, e.map = some b → e.cell = true → c.used = c.len)
    (hback : ∀ b, e.map = some b → e.cell = true →
      (e.opens && e.seals) = true ∨ ∀ f ∈ s.cfree, f.1 + f.2 ≠ b)
    (hmap : ∀ b, e.map = some b → Fresh s b (chunkLen ps need)) :
    (codeChunk ps s need e).bind (fun s => takeBump s need) = none ∨
      ∃ p span t, (codeChunk ps s need e).bind (fun s => takeBump s need) = some (p, span, t) ∧
        Seated s t out p span need e := by
  rw [codeChunk]
  cases hb : e.map with
  | none => exact Or.inl rfl
  | some b =>
      cases hcell : e.cell with
      | false => exact Or.inl rfl
      | true =>
          have hfull' : ∀ c, bumpOf s.code = some c → c.used = c.len := fun c hc => hfull c hc b hb hcell
          have hneed := le_chunkLen hps need
          have hsound := h.mapped hfull' (hmap b hb) (Nat.lt_of_lt_of_le hs hneed)
          obtain ⟨p, span, t, htake, hseat⟩ := seat_bump (e := e) (c := ⟨b, chunkLen ps need, 0, false⟩) hs hsound
            rfl hneed ((hback b hb hcell).imp_right Or.inr)
          refine Or.inr ⟨p, span, t, ?_, hseat.sound, hseat.le, hseat.spans, hseat.back⟩
          rw [releaseTail_full hfull']
          exact htake

theorem seat_spec {ps need : ℕ} {e : Answers} (hps : 0 < ps) (hs : 0 < need) (h : Sound s out)
    (hclean : CleanInstall s need e) (hmap : ∀ b, e.map = some b → Fresh s b (chunkLen ps need)) :
    seat ps s need e = none ∨ ∃ p span t, seat ps s need e = some (p, span, t) ∧
      Seated s t out p span need e := by
  rw [seat]
  cases hfit : firstFit need s.cfree with
  | some f =>
      obtain ⟨p, span, l, htake, hseat⟩ := seat_fit hs h hfit (hclean.whole f hfit)
      rw [htake]
      exact Or.inr ⟨p, span, _, rfl, hseat⟩
  | none =>
      rw [takeFit_none hfit]
      simp only [bumpRoom, bump_bind]
      cases hc : bumpOf s.code with
      | none =>
          refine seat_chunk hps hs h (fun c hc' => ?_) (hclean.above hfit fun c hc' => ?_) hmap
          · rw [hc] at hc'
            cases hc'
          · rw [hc] at hc'
            cases hc'
      | some c =>
          obtain ⟨hlen, hused, hsmall⟩ := h.small c (List.mem_of_find?_eq_some hc)
          have hsub : sub64 c.len c.used = c.len - c.used := sub64_eq hused (by omega)
          simp only [hsub]
          by_cases hroom : c.len - c.used < need
          · rw [if_pos hroom]
            refine seat_chunk hps hs h (fun d hd => ?_) (hclean.above hfit fun d hd => ?_) hmap
            · rw [hc] at hd
              cases hd
              exact hclean.full hfit c hc hroom
            · rw [hc] at hd
              cases hd
              exact hroom
          · rw [if_neg hroom]
            exact Or.inr (seat_bump hs h hc (by omega) (hclean.bump hfit c hc (by omega)))

end LoveRuntime.Arena

/-! Installs and frees in any order. What the arena hands out it accounts for as long as no
step takes one of the three ways in which it loses a span. -/

namespace LoveRuntime.Arena

open Spans

/-- Before the first install: an image's chunks at most. -/
def Start (s : Core) : Prop :=
  s.cfree = [] ∧ (∀ c ∈ s.code, c.fixed = true ∧ 0 < c.len ∧ c.used ≤ c.len ∧ c.base + c.len ≤ 2 ^ 64 ∧ 0 < c.base) ∧
    ∀ x, count (s.code.map Code.all) x ≤ 1

/-- What the system and the caller keep to: pages newly mapped are none of the arena's, and a
blob is freed once, or lies in an image's chunk. -/
def Legal (ps : ℕ) (st : State) : Op → Prop
  | .install n e => ∀ b, e.map = some b → Fresh st.core b (chunkLen ps (codeNeed n))
  | .free p _ => p ∈ st.live ∨ inFixed st.core p = true

/-- The step accounts for every byte. -/
def Clean (st : State) : Op → Prop
  | .install n e => CleanInstall st.core (codeNeed n) e
  | .free p node => inFixed st.core p = true ∨ CleanRelease st.core p (st.core.span p) node

/-- The states that steps of a kind lead to. -/
inductive Reached (ps : ℕ) (ok : State → Op → Prop) (s : Core) : State → Prop where
  | start : Reached ps ok s ⟨s, []⟩
  | step {st : State} {op : Op} : Reached ps ok s st → ok st op → Reached ps ok s (st.step ps op)

/-- Each byte of a chunk that is not an image's is in one place: a live blob's span, a free
span or the bump chunk's tail. The free list is sorted, disjoint and coalesced, the live
blobs lie apart. -/
structure Accounted (st : State) : Prop where
  once : ∀ c ∈ st.core.code, c.fixed = false → ∀ x, c.base ≤ x → x < c.base + c.len →
    count st.blobs x + count st.core.cfree x + count (tail st.core.code) x = 1
  sorted : st.core.cfree.Pairwise fun f g => f.1 + f.2 ≤ g.1
  coalesced : ∀ c ∈ st.core.code, ∀ f ∈ st.core.cfree, ∀ g ∈ st.core.cfree,
    c.base ≤ f.1 → g.1 < c.base + c.len → f.1 + f.2 ≠ g.1
  apart : st.blobs.Pairwise fun f g => f.1 + f.2 ≤ g.1 ∨ g.1 + g.2 ≤ f.1

/-- The invariant of the clean steps. -/
def Kept (st : State) : Prop := Sound st.core st.blobs ∧ ∀ f ∈ st.blobs, codeHead ≤ f.2

theorem Kept.accounted {st : State} (h : Kept st) : Accounted st := by
  obtain ⟨hsound, -⟩ := h
  refine ⟨fun c hc hfix x hx hx' => ?_, hsound.sorted, hsound.coalesced, ?_⟩
  · rw [hsound.cover]
    have hle := Nat.le_trans (count_owned_le st.core.code x) (hsound.apart x)
    have hmem : c.all ∈ owned st.core.code :=
      List.mem_map_of_mem (List.mem_filter.mpr ⟨hc, by simp [hfix]⟩)
    have := holds_le_count hmem x
    rw [Spans.holds_of_mem (f := c.all) hx hx'] at this
    omega
  · have hone : ∀ x, count st.blobs x ≤ 1 := fun x => by
      have := hsound.once x
      omega
    refine (count_le_one_apart hone).imp_of_mem fun hf hg h => ?_
    exact apart_of_holds (hsound.inside _ (List.mem_append_left _ hf)).1
      (hsound.inside _ (List.mem_append_left _ hg)).1 h

theorem start_kept {s : Core} (h : Start s) : Kept ⟨s, []⟩ := by
  obtain ⟨hfree, hcode, hapart⟩ := h
  have hbump : bumpOf s.code = none := List.find?_eq_none.mpr fun c hc => by simp [(hcode c hc).1]
  have howned : owned s.code = [] := by
    rw [owned, List.filter_eq_nil_iff.mpr fun c hc => by simp [(hcode c hc).1], List.map_nil]
  refine ⟨⟨hapart, fun c hc => (hcode c hc).2, fun x => ?_, ?_, ?_, ?_, fun c hc => ?_⟩, ?_⟩
  · rw [hfree, howned, tail, hbump]
    rfl
  · rw [hfree]
    exact List.Pairwise.nil
  · rw [hfree]
    intro f hf
    cases hf
  · rw [hfree]
    intro c _ f hf
    cases hf
  · rw [hbump] at hc
    cases hc
  · intro f hf
    cases hf

/-- A new blob's writing leaves the headers of the others. -/
theorem writeBlob_blobs {s : Core} {live : List ℕ} {p span : ℕ} {text : ℕ → ℕ}
    (hhead : ∀ q ∈ live, codeHead ≤ s.span q)
    (hapart : ∀ q ∈ live, p + span ≤ q ∨ q + s.span q ≤ p) (hspan : 0 < span) :
    (State.mk (writeBlob s p span text) live).blobs = (State.mk s live).blobs := by
  refine List.map_congr_left fun q hq => ?_
  have h := hhead q hq
  have h' := hapart q hq
  have hne : q ≠ p := fun he => by
    rw [he] at h h'
    simp only [codeHead] at h
    omega
  have hout : ¬ (p < q + codeHead ∧ q < p + span) := by omega
  simp only [writeBlob, if_neg hne, if_neg hout]

theorem codeNeed_pos (n : ℕ) : 32 ≤ codeNeed n := by
  rw [codeNeed, codeRound, codeHead]
  omega

theorem Sound.congr {s t : Core} {out : List (ℕ × ℕ)} (h : Sound s out) (hcode : t.code = s.code)
    (hcfree : t.cfree = s.cfree) : Sound t out := by
  obtain ⟨code, cfree, span⟩ := t
  subst hcode hcfree
  exact ⟨h.apart, h.small, h.cover, h.sorted, h.inside, h.coalesced, h.top⟩

theorem Sound.perm {s : Core} {out out' : List (ℕ × ℕ)} (h : Sound s out) (hperm : out.Perm out') :
    Sound s out' := by
  refine ⟨h.apart, h.small, fun x => ?_, h.sorted, fun f hf => h.inside f ?_, h.coalesced, h.top⟩
  · rw [← count_perm hperm]
    exact h.cover x
  · exact (hperm.append_right _).mem_iff.mpr hf

theorem codeRelease_span (s : Core) (p n : ℕ) (node : Bool) : (codeRelease s p n node).span = s.span := by
  rw [codeRelease]
  split
  next => rfl
  next =>
    split
    next => rfl
    next => split <;> rfl

theorem codeRelease_blobs (s : Core) (live : List ℕ) (p n : ℕ) (node : Bool) :
    (State.mk (codeRelease s p n node) live).blobs = (State.mk s live).blobs := by
  simp only [State.blobs, codeRelease_span]

/-- The blobs live on where the arena changes around them. -/
theorem Kept.around {st : State} {t : Core} (h : Kept st) (hblobs : (State.mk t st.live).blobs = st.blobs)
    (ht : Sound t st.blobs) : Kept ⟨t, st.live⟩ := by
  refine ⟨?_, ?_⟩
  · rw [hblobs]
    exact ht
  · rw [hblobs]
    exact h.2

theorem kept_install {ps n : ℕ} {e : Answers} {st : State} (hps : 0 < ps) (h : Kept st)
    (hlegal : Legal ps st (.install n e)) (hclean : Clean st (.install n e)) :
    Kept (st.step ps (.install n e)) := by
  have hneed := codeNeed_pos n
  rw [State.step, codeInstall]
  rcases seat_spec hps (by omega) h.1 hclean hlegal with hnone | ⟨p, span, t, hseat, hs⟩
  · rw [hnone]
    exact h
  · rw [hseat]
    have hle := hs.le
    have hblobs : (State.mk t st.live).blobs = st.blobs := by simp only [State.blobs, hs.spans]
    have hhead : ∀ q ∈ st.live, codeHead ≤ t.span q := fun q hq => by
      rw [hs.spans]
      exact h.2 (q, st.core.span q) (List.mem_map_of_mem hq)
    have hapart : ∀ q ∈ st.live, p + span ≤ q ∨ q + t.span q ≤ p := fun q hq => by
      have hpos := hhead q hq
      rw [hs.spans] at hpos ⊢
      refine apart_of_holds (f := (p, span)) (g := (q, st.core.span q)) (by show 0 < span; omega)
        (Nat.lt_of_lt_of_le (by decide) hpos) fun x => ?_
      have honce := hs.sound.once x
      have := holds_le_count (List.mem_map_of_mem (f := fun p => (p, st.core.span p)) hq) x
      rw [count_cons, State.blobs] at honce
      omega
    have hwritten : (State.mk (writeBlob t p span e.text) st.live).blobs = st.blobs := by
      rw [writeBlob_blobs hhead hapart (by omega), hblobs]
    have hsound : Sound (writeBlob t p span e.text) ((p, span) :: st.blobs) := hs.sound.congr rfl rfl
    cases hopens : e.opens with
    | false =>
        show Kept ⟨codeRelease t p span e.node, st.live⟩
        refine h.around ?_ (hs.sound.release (hs.back.resolve_left (by simp [hopens])))
        rw [codeRelease_blobs, hblobs]
    | true =>
        cases hseals : e.seals with
        | false =>
            show Kept ⟨codeRelease (writeBlob t p span e.text) p span e.node, st.live⟩
            refine h.around ?_ (hsound.release (hs.back.resolve_left (by simp [hseals])))
            rw [codeRelease_blobs, hwritten]
        | true =>
            show Kept ⟨writeBlob t p span e.text, p :: st.live⟩
            have hnew : (State.mk (writeBlob t p span e.text) (p :: st.live)).blobs = (p, span) :: st.blobs := by
              rw [← hwritten, State.blobs, List.map_cons, State.blobs]
              simp only [writeBlob, if_true]
            refine ⟨?_, fun f hf => ?_⟩
            · rw [hnew]
              exact hsound
            · rw [hnew] at hf
              rcases List.mem_cons.mp hf with hf | hf
              · rw [hf]
                show 16 ≤ span
                omega
              · exact h.2 f hf

theorem kept_free {ps p : ℕ} {node : Bool} {st : State} (h : Kept st)
    (hlegal : Legal ps st (.free p node)) (hclean : Clean st (.free p node)) :
    Kept (st.step ps (.free p node)) := by
  rw [State.step, codeFree]
  split
  next hfix =>
    -- a live blob is in no image's chunk
    have hnot : p ∉ st.live := fun hp => by
      have hmem : (p, st.core.span p) ∈ st.blobs := List.mem_map_of_mem (f := fun p => (p, st.core.span p)) hp
      obtain ⟨c, hc, hin⟩ := List.any_eq_true.mp hfix
      simp only [Bool.and_eq_true, decide_eq_true_eq] at hin
      have hpos := (h.1.inside _ (List.mem_append_left _ hmem)).1
      have := (h.1.holds_of_mem (List.mem_append_left _ hmem) hc (Nat.le_refl p) (by simp only at hpos ⊢; omega)
        (Spans.holds_of_mem hin.1.2 hin.2)).1
      rw [hin.1.1] at this
      cases this
    rw [List.erase_of_not_mem hnot]
    exact h
  next hfix =>
    have hp : p ∈ st.live := hlegal.resolve_right hfix
    have hperm : st.blobs.Perm ((p, st.core.span p) :: (State.mk st.core (st.live.erase p)).blobs) :=
      (List.perm_cons_erase hp).map fun p => (p, st.core.span p)
    have hsound : Sound st.core ((p, st.core.span p) :: (State.mk st.core (st.live.erase p)).blobs) :=
      h.1.perm hperm
    refine ⟨?_, fun f hf => ?_⟩
    · rw [codeRelease_blobs]
      exact hsound.release (hclean.resolve_left hfix)
    · rw [codeRelease_blobs] at hf
      exact h.2 f (hperm.mem_iff.mpr (List.mem_cons_of_mem _ hf))

/-- Over every run of clean steps each byte is accounted for. -/
theorem reached_accounted {ps : ℕ} {s : Core} {st : State} (hps : 0 < ps) (hs : Start s)
    (h : Reached ps (fun st op => Legal ps st op ∧ Clean st op) s st) : Accounted st := by
  refine Kept.accounted ?_
  induction h with
  | start => exact start_kept hs
  | @step st op _ hop ih =>
      cases op with
      | install n e => exact kept_install hps ih hop.1 hop.2
      | free p node => exact kept_free ih hop.1 hop.2

/-- A system that refuses nothing and maps at `b`. -/
def mapping (b : ℕ) : Answers := ⟨some b, true, true, true, true, true, fun _ => 0⟩

def empty : Core := ⟨[], [], fun _ => 0⟩

theorem start_empty : Start empty := ⟨rfl, fun _ hc => (nomatch hc), fun _ => Nat.zero_le 1⟩

theorem legal_first (n : ℕ) : Legal 4096 ⟨empty, []⟩ (.install n (mapping (2 ^ 20))) ↔
    2 ^ 20 + chunkLen 4096 (codeNeed n) ≤ 2 ^ 64 := by
  refine ⟨fun h => (h _ rfl).2.1, fun h b hb => ?_⟩
  cases hb
  exact ⟨by decide, h, fun c hc => (nomatch hc)⟩

theorem reached_accounted_one :
    Accounted ((State.mk empty []).step 4096 (.install 1 (mapping (2 ^ 20)))) :=
  reached_accounted (by decide) start_empty (.step .start ⟨(legal_first 1).mpr (by decide),
    ⟨fun _ hf => (nomatch hf), fun _ _ hc => (nomatch hc), fun _ _ hc => (nomatch hc), fun _ _ _ _ _ => Or.inl rfl⟩⟩)

/-- The second install does not fit the first chunk; what was left of that is in no one's hands. -/
theorem not_accounted : ¬ ∀ ps s st, 0 < ps → Start s → Reached ps (Legal ps) s st → Accounted st := by
  intro h
  have hlegal : Legal 4096 ((State.mk empty []).step 4096 (.install 1 (mapping (2 ^ 20))))
      (.install (2 ^ 20) (mapping (2 ^ 22))) := fun b hb => by
    cases hb
    refine ⟨by decide, by decide, ?_⟩
    decide
  have hst := h 4096 empty _ (by decide) start_empty
    (.step (.step .start ((legal_first 1).mpr (by decide))) hlegal)
  have honce := hst.once ⟨2 ^ 20, 2 ^ 20, 32, false⟩ (by decide) rfl (2 ^ 20 + 32) (by decide) (by decide)
  revert honce
  decide

end LoveRuntime.Arena
