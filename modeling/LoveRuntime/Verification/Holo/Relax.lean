import LoveRuntime.Verification.Holo.Layout

/-! One pessimistic pass is enough: the distances it decides on only shrink toward zero, so that what `laylax` lays
short still reaches. -/

namespace LoveRuntime.Holo

variable {S F K E : Type}

/-- A form with its length. -/
abbrev Sized (S F : Type) := Ins S F × ℕ

def sizes (rows : List (Sized S F)) : ℕ := (rows.map Prod.snd).sum

@[simp] theorem sizes_nil : sizes ([] : List (Sized S F)) = 0 := rfl

@[simp] theorem sizes_cons (x : Sized S F) (rows : List (Sized S F)) : sizes (x :: rows) = x.2 + sizes rows := by
  simp [sizes]

@[simp] theorem sizes_append (a b : List (Sized S F)) : sizes (a ++ b) = sizes a + sizes b := by
  simp [sizes]

/-! ### Eras -/

/-- One for an align. -/
def turn : Ins S F → ℕ
  | .align _ _ => 1
  | _ => 0

/-- The widest pad of an align. -/
def slack : Ins S F → ℕ
  | .align n _ => n - 1
  | _ => 0

def aligns (p : List (Ins S F)) : ℕ := (p.map turn).sum

def wide (p : List (Ins S F)) : ℕ := (p.map slack).sum

@[simp] theorem aligns_nil : aligns ([] : List (Ins S F)) = 0 := rfl

@[simp] theorem aligns_cons (x : Ins S F) (p : List (Ins S F)) : aligns (x :: p) = turn x + aligns p := by
  simp [aligns]

@[simp] theorem aligns_append (a b : List (Ins S F)) : aligns (a ++ b) = aligns a + aligns b := by
  simp [aligns]

@[simp] theorem wide_nil : wide ([] : List (Ins S F)) = 0 := rfl

@[simp] theorem wide_cons (x : Ins S F) (p : List (Ins S F)) : wide (x :: p) = slack x + wide p := by
  simp [wide]

@[simp] theorem wide_append (a b : List (Ins S F)) : wide (a ++ b) = wide a + wide b := by
  simp [wide]

/-- Without an align there is no pad. -/
theorem wide_eq_zero {p : List (Ins S F)} (h : aligns p = 0) : wide p = 0 := by
  induction p with
  | nil => rfl
  | cons x p ih =>
      simp only [aligns_cons, Nat.add_eq_zero_iff] at h
      rw [wide_cons, ih h.2]
      cases x with
      | align n fill => simp [turn] at h
      | _ => rfl

theorem foldl_sizes (p : List (Sized S F)) (a : ℤ) : p.foldl (fun a x => a + (x.2 : ℤ)) a = a + sizes p := by
  induction p generalizing a with
  | nil => simp
  | cons x p ih =>
      rw [List.foldl_cons, ih, sizes_cons, Nat.cast_add, Int.add_assoc]

theorem foldl_turns (p : List (Sized S F)) (e : ℕ) :
    p.foldl (fun e x => e + turn x.1) e = e + aligns (p.map Prod.fst) := by
  induction p generalizing e with
  | nil => rfl
  | cons x p ih => rw [List.foldl_cons, ih, List.map_cons, aligns_cons, Nat.add_assoc]

/-! ### Labels pinned along a walk -/

variable [DecidableEq S]

/-- A walk over sized forms that pins each label with what it holds there. -/
def pins {σ β : Type} (step : Sized S F → σ → σ) (val : Option ℤ → σ → β) :
    List (Sized S F) → σ → (S → Option β) → S → Option β
  | [], _, m => m
  | (.label nm k, w) :: rows, s, m => pins step val rows (step (.label nm k, w) s) (pin m nm (val k s))
  | x :: rows, s, m => pins step val rows (step x s) m

theorem pins_cons {σ β : Type} (step : Sized S F → σ → σ) (val : Option ℤ → σ → β) {x : Sized S F}
    (hx : ∀ nm k, x.1 ≠ .label nm k) (rows : List (Sized S F)) (s : σ) (m : S → Option β) :
    pins step val (x :: rows) s m = pins step val rows (step x s) m := by
  obtain ⟨ins, w⟩ := x
  cases ins with
  | label nm k => exact absurd rfl (hx nm k)
  | _ => rfl

/-- A label that is not laid keeps what it had. -/
theorem pins_of_notMem {σ β : Type} (step : Sized S F → σ → σ) (val : Option ℤ → σ → β) {rows : List (Sized S F)}
    {l : S} (hl : l ∉ names (rows.map Prod.fst)) (s : σ) (m : S → Option β) : pins step val rows s m l = m l := by
  induction rows generalizing s m with
  | nil => rfl
  | cons x rows ih =>
      by_cases hx : ∀ nm k, x.1 ≠ .label nm k
      case pos =>
        rw [List.map_cons, names_of_not_label hx] at hl
        rw [pins_cons _ _ hx, ih hl]
      case neg =>
        obtain ⟨ins, w⟩ := x
        simp only [not_forall, not_not] at hx
        obtain ⟨nm, k, rfl⟩ := hx
        simp only [List.map_cons, names, List.mem_cons, not_or] at hl
        rw [pins, ih hl.2, pin_ne hl.1]

/-- The last of a name has what the walk holds there. -/
theorem pins_last {σ β : Type} (step : Sized S F → σ → σ) (val : Option ℤ → σ → β) {rows p q : List (Sized S F)} {l : S}
    {k : Option ℤ} {w : ℕ} (hrows : rows = p ++ (.label l k, w) :: q) (hl : l ∉ names (q.map Prod.fst)) (s : σ)
    (m : S → Option β) : pins step val rows s m l = some (val k (p.foldl (fun s x => step x s) s)) := by
  subst hrows
  induction p generalizing s m with
  | nil =>
      simp only [List.nil_append, List.foldl_nil]
      rw [pins, pins_of_notMem step val hl, pin_self]
  | cons x p ih =>
      by_cases hx : ∀ nm k, x.1 ≠ .label nm k
      case pos => rw [List.cons_append, pins_cons _ _ hx, ih, List.foldl_cons]
      case neg =>
        obtain ⟨ins, v⟩ := x
        simp only [not_forall, not_not] at hx
        obtain ⟨nm, k', rfl⟩ := hx
        rw [List.cons_append, pins, ih, List.foldl_cons]

/-- The addresses of the labels. -/
def addrs (rows : List (Sized S F)) (a : ℤ) (m : Labels S) : Labels S :=
  pins (fun x (a : ℤ) => a + x.2) labelAddr rows a m

/-- The eras of the labels. -/
def erasOf (rows : List (Sized S F)) (e : ℕ) (m : S → Option ℕ) : S → Option ℕ :=
  pins (fun x e => e + turn x.1) (fun _ e => e) rows e m

theorem addrs_last {rows p q : List (Sized S F)} {l : S} {k : Option ℤ} {w : ℕ}
    (hrows : rows = p ++ (.label l k, w) :: q) (hl : l ∉ names (q.map Prod.fst)) (a : ℤ) (m : Labels S) :
    addrs rows a m l = some (labelAddr k (a + sizes p)) := by
  rw [addrs, pins_last _ _ hrows hl, foldl_sizes]

theorem erasOf_last {rows p q : List (Sized S F)} {l : S} {k : Option ℤ} {w : ℕ}
    (hrows : rows = p ++ (.label l k, w) :: q) (hl : l ∉ names (q.map Prod.fst)) (e : ℕ) (m : S → Option ℕ) :
    erasOf rows e m l = some (e + aligns (p.map Prod.fst)) := by
  rw [erasOf, pins_last _ _ hrows hl, foldl_turns]

omit [DecidableEq S] in
/-- A name that is laid is laid last somewhere. -/
theorem exists_last {rows : List (Sized S F)} {l : S} (h : l ∈ names (rows.map Prod.fst)) :
    ∃ p k w q, rows = p ++ (.label l k, w) :: q ∧ l ∉ names (q.map Prod.fst) := by
  induction rows with
  | nil => cases h
  | cons x rows ih =>
      by_cases hmem : l ∈ names (rows.map Prod.fst)
      case pos =>
        obtain ⟨p, k, w, q, hrows, hq⟩ := ih hmem
        exact ⟨x :: p, k, w, q, by rw [hrows, List.cons_append], hq⟩
      case neg =>
        obtain ⟨ins, w⟩ := x
        cases ins with
        | label nm k =>
            simp only [List.map_cons, names, List.mem_cons] at h
            obtain rfl := h.resolve_right hmem
            exact ⟨[], k, w, rows, rfl, hmem⟩
        | _ => exact absurd h hmem

/-! ### What pass one leaves -/

/-- The chunks of a program, reversed, with their lengths. -/
inductive Chunks (be : Backend S F K E) : List (Ins S F) → List (Chunk S K) → Prop where
  | nil : Chunks be [] []
  | label {nm k p cs} : Chunks be p cs → Chunks be (.label nm k :: p) ((0, []) :: cs)
  | align {n fill p cs} (a : ℤ) : Chunks be p cs →
      Chunks be (.align n fill :: p) ((padLen a n, (padIns be a n fill).reverse) :: cs)
  | form {ins p cs} (c : List (Item S K)) (hlabel : ∀ nm k, ins ≠ .label nm k) (halign : ∀ n fill, ins ≠ .align n fill)
      (hlower : lowerWith be (flagidiom be ins p) = .ok c) : Chunks be p cs →
      Chunks be (ins :: p) ((total c, c.reverse) :: cs)

/-- The forms with the lengths of their chunks. -/
def longs (p : List (Ins S F)) (cs : List (Chunk S K)) : List (Sized S F) := p.zip (cs.map Prod.fst)

omit [DecidableEq S] in
@[simp] theorem longs_cons (x : Ins S F) (p : List (Ins S F)) (c : Chunk S K) (cs : List (Chunk S K)) :
    longs (x :: p) (c :: cs) = (x, c.1) :: longs p cs := rfl

/-- Pass one, once it has answered. -/
structure Plumbed (be : Backend S F K E) (p : List (Ins S F)) (addr : ℤ) (era : ℕ) (st : Plumb S)
    (acc : List (Chunk S K)) (r : List (Chunk S K) × Plumb S) (cs : List (Chunk S K)) : Prop where
  chunks : Chunks be p cs
  answer : r.1 = acc.reverse ++ cs
  spots : r.2.spots = addrs (longs p cs) addr st.spots
  eras : r.2.eras = erasOf (longs p cs) era st.eras
  before : ∀ e ≤ era, r.2.grows e = st.grows e
  grows : ∀ a b, p = a ++ b → r.2.grows (era + aligns a) = st.grows era + wide a

theorem addrs_cons {x : Sized S F} (hx : ∀ nm k, x.1 ≠ .label nm k) (rows : List (Sized S F)) (a : ℤ) (m : Labels S) :
    addrs (x :: rows) a m = addrs rows (a + x.2) m :=
  pins_cons _ _ hx rows a m

theorem erasOf_cons {x : Sized S F} (hx : ∀ nm k, x.1 ≠ .label nm k) (rows : List (Sized S F)) (e : ℕ)
    (m : S → Option ℕ) : erasOf (x :: rows) e m = erasOf rows (e + turn x.1) m :=
  pins_cons _ _ hx rows e m

theorem plumb_plumbed (be : Backend S F K E) (p : List (Ins S F)) (addr : ℤ) (era : ℕ) (st : Plumb S)
    (acc : List (Chunk S K)) {r : List (Chunk S K) × Plumb S} (h : plumb be p addr era st acc = .ok r) :
    ∃ cs, Plumbed be p addr era st acc r cs := by
  fun_induction plumb be p addr era st acc with
  | case1 addr era st acc =>
      cases h
      refine ⟨[], .nil, by simp, rfl, rfl, fun _ _ => rfl, ?_⟩
      intro a b hab
      obtain ⟨rfl, rfl⟩ := List.append_eq_nil_iff.mp hab.symm
      simp
  | case2 p addr era st acc nm k ih =>
      obtain ⟨cs, hc⟩ := ih h
      refine ⟨(0, []) :: cs, .label hc.chunks, by simp [hc.answer], ?_, ?_, hc.before, ?_⟩
      · rw [hc.spots]
        simp [addrs, pins]
      · rw [hc.eras]
        simp [erasOf, pins, turn]
      · intro a b hab
        cases a with
        | nil => simpa using hc.before era le_rfl
        | cons x a =>
            obtain ⟨rfl, rfl⟩ := List.cons_eq_cons.mp hab
            simpa [turn, slack] using hc.grows a b rfl
  | case3 p addr era st acc n fill c ih =>
      obtain ⟨cs, hc⟩ := ih h
      have hrow : c = (padLen addr n, (padIns be addr n fill).reverse) := by simp [c, revonto_eq, padIns_total]
      have hnot : ∀ nm k, (Ins.align n fill : Ins S F) ≠ .label nm k := fun _ _ => nofun
      refine ⟨c :: cs, hrow ▸ .align addr hc.chunks, by simp [hc.answer], ?_, ?_, ?_, ?_⟩
      · rw [hc.spots, longs_cons, addrs_cons hnot]
      · rw [hc.eras, longs_cons, erasOf_cons hnot]
        rfl
      · intro e he
        rw [hc.before e (by omega)]
        exact Function.update_of_ne (by omega) _ _
      · intro a b hab
        cases a with
        | nil =>
            rw [aligns_nil, Nat.add_zero, hc.before era (by omega), wide_nil, Nat.cast_zero, Int.add_zero]
            exact Function.update_of_ne (by omega) _ _
        | cons x a =>
            obtain ⟨rfl, rfl⟩ := List.cons_eq_cons.mp hab
            have hgrow := hc.grows a b rfl
            simp only [Function.update_self] at hgrow
            rw [aligns_cons, wide_cons, turn, slack, ← Nat.add_assoc, hgrow, Nat.cast_add,
              Nat.cast_sub (show 1 ≤ (n : ℕ) from n.pos), Int.add_assoc]
            rfl
  | case4 => cases h
  | case5 p addr era st acc ins hlabel halign c hlower x ih =>
      obtain ⟨cs, hc⟩ := ih h
      have hrow : x = (total c, c.reverse) := by simp [x, revonto_eq]
      have hturn : turn ins = 0 := by
        cases ins with
        | align n fill => exact absurd rfl (halign n fill)
        | _ => rfl
      have hslack : slack ins = 0 := by
        cases ins with
        | align n fill => exact absurd rfl (halign n fill)
        | _ => rfl
      refine ⟨x :: cs, hrow ▸ .form c hlabel halign hlower hc.chunks, by simp [hc.answer], ?_, ?_, hc.before, ?_⟩
      · rw [hc.spots, longs_cons, addrs_cons hlabel]
      · rw [hc.eras, longs_cons, erasOf_cons hlabel, hturn]
        rfl
      · intro a b hab
        cases a with
        | nil => simpa using hc.before era le_rfl
        | cons y a =>
            obtain ⟨rfl, rfl⟩ := List.cons_eq_cons.mp hab
            simpa [hturn, hslack] using hc.grows a b rfl

/-! ### What pass two lays -/

/-- The label a form that may be laid short aims at. -/
def aim : Ins S F → Option S
  | .jmp l => some l
  | .br _ l => some l
  | .lal _ _ p => some p
  | _ => none

omit [DecidableEq S] in
theorem tgtOf_eq_some {st : Plumb S} {lg : S → Bool} {l : S} {era : ℕ} {t : ℤ} (h : tgtOf st lg l era = some t) :
    st.spots l = some t ∧ st.eras l = some era := by
  unfold tgtOf at h
  split at h
  case h_1 => cases h
  case h_2 s hs =>
    split at h
    case isTrue => cases h
    case isFalse =>
      split at h
      case isTrue => cases h
      case isFalse hera => exact ⟨hs.trans h, not_not.mp hera⟩

omit [DecidableEq S] in
/-- The distance a form is given is to its label's pessimistic address, the widest pads on the way on top. -/
theorem targetOf_eq_some {st : Plumb S} {lg : S → Bool} {ins : Ins S F} {l : S} {era : ℕ} {t : ℤ}
    (haim : aim ins = some l) (h : targetOf st lg ins era = some t) :
    ∃ s e, st.spots l = some s ∧ st.eras l = some e ∧ era ≤ e ∧ t = s + (st.grows e - st.grows era) := by
  have near : ∀ {l}, tgtOf st lg l era = some t →
      ∃ s e, st.spots l = some s ∧ st.eras l = some e ∧ era ≤ e ∧ t = s + (st.grows e - st.grows era) := by
    intro l h
    obtain ⟨hs, he⟩ := tgtOf_eq_some h
    exact ⟨t, era, hs, he, le_rfl, by omega⟩
  cases ins with
  | jmp l' =>
      cases haim
      exact near h
  | br c l' =>
      cases haim
      exact near h
  | lal d l' p =>
      cases haim
      simp only [targetOf, poolOf] at h
      split at h
      case h_1 => cases h
      case h_2 s hs =>
        split at h
        case isTrue => cases h
        case isFalse =>
          split at h
          case h_1 => cases h
          case h_2 e he =>
            split at h
            case isTrue => cases h
            case isFalse hlt => exact ⟨s, e, hs, he, not_lt.mp hlt, (Option.some.inj h).symm⟩
  | _ => cases haim

omit [DecidableEq S] in
theorem shortOf_eq_cons {short : Ins S F → List (Item S K) → ℤ → List (Item S K)} {st : Plumb S} {lg : S → Bool}
    {ins : Ins S F} {c : List (Item S K)} {era : ℕ} {pa : ℤ} {x : Item S K} {sc : List (Item S K)}
    (h : shortOf short st lg ins c era pa = x :: sc) :
    ∃ l t, aim ins = some l ∧ targetOf st lg ins era = some t ∧ x :: sc = short ins c.reverse (t - pa) := by
  unfold shortOf at h
  split at h
  case h_1 => cases h
  case h_2 t ht =>
    cases ins with
    | jmp l => exact ⟨l, t, rfl, ht, h.symm⟩
    | br c l => exact ⟨l, t, rfl, ht, h.symm⟩
    | lal d l p => exact ⟨p, t, rfl, ht, h.symm⟩
    | _ => cases ht

theorem fuseOf_eq_cons {be : Backend S F K E} {st : Plumb S} {lg : S → Bool} {ins : Ins S F} {rest : List (Ins S F)}
    {era : ℕ} {pa : ℤ} {x : Item S K} {fu : List (Item S K)} (h : fuseOf be st lg ins rest era pa = x :: fu) :
    ∃ fuse a b c l more t, be.fuse = some fuse ∧ ins = .cmp a b ∧ rest = .br c l :: more ∧
      tgtOf st lg l era = some t ∧ x :: fu = fuse (.cmp a b) (.br c l) (t - pa) := by
  unfold fuseOf at h
  split at h
  case h_1 fuse a b c l more hfuse =>
    split at h
    case h_1 => cases h
    case h_2 t ht =>
      dsimp only at h
      split at h
      case isTrue => exact ⟨fuse, a, b, c, l, more, t, hfuse, rfl, rfl, ht, h.symm⟩
      case isFalse => cases h
  case h_2 => cases h

/-- A form with its length at full size and as laid. -/
structure Row (S F : Type) where
  ins : Ins S F
  long : ℕ
  laid : ℕ

def Row.atLong (r : Row S F) : Sized S F := (r.ins, r.long)

def Row.atLaid (r : Row S F) : Sized S F := (r.ins, r.laid)

/-- What pass two lays from a pessimistic and a final address, form by form. -/
inductive Stitched (be : Backend S F K E) (short : Ins S F → List (Item S K) → ℤ → List (Item S K)) (st : Plumb S)
    (lg : S → Bool) : List (Ins S F) → ℤ → ℤ → ℕ → List (Row S F) → List (Item S K) → Prop where
  | nil (pa fa era) : Stitched be short st lg [] pa fa era [] []
  | label {nm off p pa fa era rows out} : Stitched be short st lg p pa fa era rows out →
      Stitched be short st lg (.label nm off :: p) pa fa era (⟨.label nm off, 0, 0⟩ :: rows) out
  | fused {fuse a b c l p pa fa era rows out t} {ca cb fu : List (Item S K)} (hfuse : be.fuse = some fuse)
      (hca : lowerWith be (flagidiom be (.cmp a b) (.br c l :: p)) = .ok ca)
      (hcb : lowerWith be (flagidiom be (.br c l) p) = .ok cb) (ht : tgtOf st lg l era = some t)
      (hfu : fu = fuse (.cmp a b) (.br c l) (t - pa)) (hne : fu ≠ []) :
      Stitched be short st lg p (pa + total ca + total cb) (fa + total fu) era rows out →
      Stitched be short st lg (.cmp a b :: .br c l :: p) pa fa era
        (⟨.cmp a b, total ca, min (total ca) (total fu)⟩ :: ⟨.br c l, total cb, total fu - total ca⟩ :: rows) (fu ++ out)
  | align {n fill p pa fa era rows out} (a : ℤ) :
      Stitched be short st lg p (pa + padLen a n) (fa + padLen fa n) (era + 1) rows out →
      Stitched be short st lg (.align n fill :: p) pa fa era (⟨.align n fill, padLen a n, padLen fa n⟩ :: rows)
        (padIns be fa n fill ++ out)
  | short {ins l p pa fa era rows out t} {c sc : List (Item S K)} (haim : aim ins = some l)
      (hc : lowerWith be (flagidiom be ins p) = .ok c) (ht : targetOf st lg ins era = some t)
      (hsc : sc = short ins c (t - pa)) (hne : sc ≠ []) :
      Stitched be short st lg p (pa + total c) (fa + total sc) era rows out →
      Stitched be short st lg (ins :: p) pa fa era (⟨ins, total c, total sc⟩ :: rows) (sc ++ out)
  | keep {ins p pa fa era rows out} {c : List (Item S K)} (hlabel : ∀ nm k, ins ≠ .label nm k)
      (halign : ∀ n fill, ins ≠ .align n fill) (hc : lowerWith be (flagidiom be ins p) = .ok c) :
      Stitched be short st lg p (pa + total c) (fa + total c) era rows out →
      Stitched be short st lg (ins :: p) pa fa era (⟨ins, total c, total c⟩ :: rows) (c ++ out)

theorem Chunks.form_inv {be : Backend S F K E} {ins : Ins S F} {p : List (Ins S F)} {k : ℕ} {c : List (Item S K)}
    {cs : List (Chunk S K)} (h : Chunks be (ins :: p) ((k, c) :: cs)) (hlabel : ∀ nm k, ins ≠ .label nm k)
    (halign : ∀ n fill, ins ≠ .align n fill) :
    lowerWith be (flagidiom be ins p) = .ok c.reverse ∧ k = total c ∧ Chunks be p cs := by
  cases h with
  | label => exact absurd rfl (hlabel _ _)
  | align => exact absurd rfl (halign _ _)
  | form c _ _ hc hrest => exact ⟨by rw [List.reverse_reverse, hc], (total_reverse c).symm, hrest⟩

theorem stitch_stitched {be : Backend S F K E} {short : Ins S F → List (Item S K) → ℤ → List (Item S K)}
    (st : Plumb S) (lg : S → Bool) {p : List (Ins S F)} {cs : List (Chunk S K)} (hchunks : Chunks be p cs) (pa fa : ℤ)
    (era : ℕ) (items : List (Item S K)) (labels : Labels S) :
    ∃ rows out, Stitched be short st lg p pa fa era rows out ∧ rows.map Row.atLong = longs p cs ∧
      stitch be short st lg p cs pa fa era items labels =
        (items.reverse ++ out, addrs (rows.map Row.atLaid) fa labels) := by
  fun_induction stitch be short st lg p cs pa fa era items labels with
  | case1 p k c cs pa fa era items labels nm off ih =>
      cases hchunks with
      | form _ hlabel => exact absurd rfl (hlabel nm off)
      | label hrest =>
          obtain ⟨rows, out, hst, hlong, heq⟩ := ih hrest
          refine ⟨_, out, .label hst, by simp [hlong, Row.atLong], ?_⟩
          rw [heq]
          simp [Row.atLaid, addrs, pins]
  | case2 k c pa fa era items labels ins hlabel x fu ins' p k' c' cs r hfu ih =>
      obtain ⟨fuse, a, b, cc, l, more, t, hfuse, rfl, hrest, ht, hx⟩ := fuseOf_eq_cons hfu
      obtain ⟨rfl, rfl⟩ := List.cons_eq_cons.mp hrest
      obtain ⟨hca, rfl, hbr⟩ := hchunks.form_inv (fun _ _ => nofun) (fun _ _ => nofun)
      obtain ⟨hcb, rfl, hp⟩ := hbr.form_inv (fun _ _ => nofun) (fun _ _ => nofun)
      obtain ⟨rows, out, hst, hlong, heq⟩ := ih hp
      have hr : r = (total (x :: fu), (x :: fu).reverse ++ items) := by simp [r, revonto_eq]
      rw [hr] at hst heq ⊢
      rw [← total_reverse c, ← total_reverse c'] at hst
      refine ⟨_, _, .fused hfuse hca hcb ht hx (by simp) hst, by simp [hlong, Row.atLong], ?_⟩
      rw [heq, List.map_cons, List.map_cons, addrs_cons (fun _ _ => by simp [Row.atLaid]),
        addrs_cons (fun _ _ => by simp [Row.atLaid])]
      have hsum : fa + ((min (total c) (total (x :: fu)) : ℕ) : ℤ) + ((total (x :: fu) - total c : ℕ) : ℤ) =
          fa + total (x :: fu) := by omega
      simp only [Row.atLaid, total_reverse, hsum, List.reverse_append, List.reverse_reverse, List.append_assoc]
  | case3 p k c cs pa fa era items labels ins hlabel x fu hfu hno =>
      obtain ⟨fuse, a, b, cc, l, more, t, hfuse, rfl, rfl, ht, hx⟩ := fuseOf_eq_cons hfu
      obtain ⟨-, -, hbr⟩ := hchunks.form_inv (fun _ _ => nofun) (fun _ _ => nofun)
      cases hbr with
      | form _ _ _ _ _ => exact absurd rfl (hno _ _ _ _ _ rfl)
  | case4 p k c cs pa fa era items labels n fill pad hlabel hfu ih =>
      cases hchunks with
      | form _ _ halign => exact absurd rfl (halign n fill)
      | align a hrest =>
          have hpad : pad.length = padLen fa n := padIns_length be fa n fill
          obtain ⟨rows, out, hst, hlong, heq⟩ := ih hrest
          rw [hpad] at hst
          refine ⟨_, _, .align a hst, by simp [hlong, Row.atLong], ?_⟩
          rw [heq, List.map_cons, addrs_cons (fun _ _ => by simp [Row.atLaid]), hpad]
          simp [Row.atLaid, pad]
  | case5 p k c cs pa fa era items labels ins halign hshort hlabel hfu ih =>
      obtain ⟨hc, rfl, hp⟩ := hchunks.form_inv hlabel halign
      obtain ⟨rows, out, hst, hlong, heq⟩ := ih hp
      rw [← total_reverse c] at hst
      refine ⟨_, _, .keep hlabel halign hc hst, by simp [hlong, Row.atLong], ?_⟩
      rw [heq, List.map_cons, addrs_cons hlabel]
      simp [Row.atLaid]
  | case6 p k c cs pa fa era items labels ins halign x sc hsc r hlabel hfu ih =>
      obtain ⟨hc, rfl, hp⟩ := hchunks.form_inv hlabel halign
      obtain ⟨l, t, haim, ht, hx⟩ := shortOf_eq_cons hsc
      obtain ⟨rows, out, hst, hlong, heq⟩ := ih hp
      have hr : r = (total (x :: sc), (x :: sc).reverse ++ items) := by simp [r, revonto_eq]
      rw [hr] at hst heq ⊢
      rw [← total_reverse c] at hst
      refine ⟨_, _, .short haim hc ht hx (by simp) hst, by simp [hlong, Row.atLong], ?_⟩
      rw [heq, List.map_cons, addrs_cons hlabel]
      simp [Row.atLaid]
  | case7 t cs pa fa era items labels hno =>
      cases hchunks with
      | nil => exact ⟨[], [], .nil _ _ _, rfl, by simp [addrs, pins]⟩
      | label => exact absurd rfl (hno _ _ _ _ _ rfl)
      | align => exact absurd rfl (hno _ _ _ _ _ rfl)
      | form => exact absurd rfl (hno _ _ _ _ _ rfl)

/-! ### Distances shrink toward zero -/

/-- Between zero and the other. -/
def Toward (d' d : ℤ) : Prop := 0 ≤ d' ∧ d' ≤ d ∨ d ≤ d' ∧ d' ≤ 0

/-- A form that is laid as it was lowered. -/
def Still : Ins S F → Prop
  | .label _ _ => False
  | .align _ _ => False
  | .jmp _ => False
  | .br _ _ => False
  | .lal _ _ _ => False
  | .cmp _ _ => False
  | _ => True

omit [DecidableEq S] in
theorem not_still_of_aim {ins : Ins S F} {l : S} (h : aim ins = some l) : ¬Still ins := by
  cases ins with
  | jmp l' => exact id
  | br c l' => exact id
  | lal d l' p => exact id
  | _ => cases h

/-- What the hooks are held to: an encoding no longer than the chunks it stands for, that reaches the distance it was
given and every distance nearer. -/
structure Hooks (be : Backend S F K E) (short : Ins S F → List (Item S K) → ℤ → List (Item S K))
    (reach : List (Item S K) → ℤ → Prop) : Prop where
  short_le : ∀ ins rest c rel, lowerWith be (flagidiom be ins rest) = .ok c → short ins c rel ≠ [] →
    total (short ins c rel) ≤ total c
  short_reach : ∀ ins rest c rel, lowerWith be (flagidiom be ins rest) = .ok c → short ins c rel ≠ [] →
    reach (short ins c rel) rel
  fuse_le : ∀ fuse a b c l rest ca cb rel, be.fuse = some fuse →
    lowerWith be (flagidiom be (.cmp a b) (.br c l :: rest)) = .ok ca →
    lowerWith be (flagidiom be (.br c l) rest) = .ok cb → fuse (.cmp a b) (.br c l) rel ≠ [] →
    total (fuse (.cmp a b) (.br c l) rel) ≤ total ca + total cb
  fuse_reach : ∀ fuse a b c l rel, be.fuse = some fuse → fuse (.cmp a b) (.br c l) rel ≠ [] →
    reach (fuse (.cmp a b) (.br c l) rel) rel
  toward : ∀ sc d d', Toward d' d → reach sc d → reach sc d'

/-- A label with an offset, where a form that may be laid short aims at it, names a byte inside the form after it, one
that is laid as it was lowered. -/
def Inside (be : Backend S F K E) (prog : List (Ins S F)) : Prop :=
  ∀ p l (k : ℤ) q, prog = p ++ .label l (some k) :: q → (∃ ins ∈ prog, aim ins = some l) →
    ∃ ins rest c, q = ins :: rest ∧ Still ins ∧ lowerWith be (flagidiom be ins rest) = .ok c ∧ 0 ≤ k ∧ k ≤ total c

section Stitched

variable {be : Backend S F K E} {short : Ins S F → List (Item S K) → ℤ → List (Item S K)} {st : Plumb S} {lg : S → Bool}
  {p : List (Ins S F)} {pa fa : ℤ} {era : ℕ} {rows : List (Row S F)} {out : List (Item S K)}

theorem Stitched.map_ins (h : Stitched be short st lg p pa fa era rows out) : rows.map Row.ins = p := by
  induction h with
  | nil => rfl
  | fused _ _ _ _ _ _ _ ih => simp [ih]
  | _ => simp_all

/-- A form is laid no longer than at full size, a pad no longer than the widest. -/
theorem Stitched.laid_le {reach : List (Item S K) → ℤ → Prop} (hooks : Hooks be short reach)
    (h : Stitched be short st lg p pa fa era rows out) : ∀ r ∈ rows, r.laid ≤ r.long + slack r.ins := by
  induction h with
  | nil => simp
  | label _ ih => simpa using ih
  | fused hfuse hca hcb ht hfu hne _ ih =>
      subst hfu
      have := hooks.fuse_le _ _ _ _ _ _ _ _ _ hfuse hca hcb hne
      simp only [List.mem_cons, forall_eq_or_imp]
      exact ⟨by omega, by omega, ih⟩
  | @align n fill p pa fa era rows out a _ ih =>
      have := padLen_lt fa n
      simp only [List.mem_cons, forall_eq_or_imp]
      exact ⟨by simp only [slack]; omega, ih⟩
  | short haim hc ht hsc hne _ ih =>
      subst hsc
      have := hooks.short_le _ _ _ _ hc hne
      simp only [List.mem_cons, forall_eq_or_imp]
      exact ⟨by omega, ih⟩
  | keep hlabel halign hc _ ih => simpa using ih

/-- A still form has the length of what it was lowered to, at full size and as laid. -/
theorem Stitched.still (h : Stitched be short st lg p pa fa era rows out) {a b : List (Row S F)} {r : Row S F}
    (hrows : rows = a ++ r :: b) (hstill : Still r.ins) :
    ∃ c, lowerWith be (flagidiom be r.ins (b.map Row.ins)) = .ok c ∧ r.laid = total c := by
  induction h generalizing a with
  | nil => simp at hrows
  | label hrest ih =>
      cases a with
      | nil =>
          obtain ⟨rfl, rfl⟩ := List.cons_eq_cons.mp hrows
          cases hstill
      | cons x a => exact ih (List.cons_eq_cons.mp hrows).2
  | fused hfuse hca hcb ht hfu hne hrest ih =>
      match a, hrows with
      | [], hrows =>
        obtain ⟨rfl, rfl⟩ := List.cons_eq_cons.mp hrows
        cases hstill
      | [x], hrows =>
        obtain ⟨rfl, rfl⟩ := List.cons_eq_cons.mp (List.cons_eq_cons.mp hrows).2
        cases hstill
      | x :: y :: a, hrows => exact ih (List.cons_eq_cons.mp (List.cons_eq_cons.mp hrows).2).2
  | align _ hrest ih =>
      cases a with
      | nil =>
          obtain ⟨rfl, rfl⟩ := List.cons_eq_cons.mp hrows
          cases hstill
      | cons x a => exact ih (List.cons_eq_cons.mp hrows).2
  | @short ins l p pa fa era rows out t c sc haim hc ht hsc hne hrest ih =>
      cases a with
      | nil =>
          obtain ⟨rfl, rfl⟩ := List.cons_eq_cons.mp hrows
          exact absurd hstill (not_still_of_aim haim)
      | cons x a => exact ih (List.cons_eq_cons.mp hrows).2
  | keep hlabel halign hc hrest ih =>
      cases a with
      | nil =>
          obtain ⟨rfl, rfl⟩ := List.cons_eq_cons.mp hrows
          exact ⟨_, by rw [hrest.map_ins]; exact hc, rfl⟩
      | cons x a => exact ih (List.cons_eq_cons.mp hrows).2

end Stitched

omit [DecidableEq S] in
theorem sizes_laid_le {m : List (Row S F)} (h : ∀ r ∈ m, r.laid ≤ r.long + slack r.ins) :
    sizes (m.map Row.atLaid) ≤ sizes (m.map Row.atLong) + wide (m.map Row.ins) := by
  induction m with
  | nil => simp
  | cons r m ih =>
      have hr := h r (by simp)
      have hm := ih fun x hx => h x (by simp [hx])
      simp only [List.map_cons, sizes_cons, wide_cons, Row.atLaid, Row.atLong]
      omega

omit [DecidableEq S] in
theorem map_atLong_fst (m : List (Row S F)) : (m.map Row.atLong).map Prod.fst = m.map Row.ins := by
  simp [Row.atLong]

omit [DecidableEq S] in
theorem map_atLaid_fst (m : List (Row S F)) : (m.map Row.atLaid).map Prod.fst = m.map Row.ins := by
  simp [Row.atLaid]

omit [DecidableEq S] in
/-- The rows around the last label of a name. -/
theorem exists_last_row {rows : List (Row S F)} {l : S} (h : l ∈ names (rows.map Row.ins)) :
    ∃ p k x q, rows = p ++ x :: q ∧ x.ins = .label l k ∧ l ∉ names (q.map Row.ins) := by
  rw [← map_atLong_fst] at h
  obtain ⟨p, k, w, q, hrows, hq⟩ := exists_last h
  obtain ⟨p', q', rfl, rfl, htail⟩ := List.map_eq_append_iff.mp hrows
  obtain ⟨x, q', rfl, hx, rfl⟩ := List.map_eq_cons_iff.mp htail
  rw [map_atLong_fst] at hq
  exact ⟨p', k, x, q', rfl, congrArg Prod.fst hx, hq⟩

/-- Everything pass two knows and leaves, for the whole program. -/
structure Whole (be : Backend S F K E) (st : Plumb S) (prog : List (Ins S F)) (org : ℤ) (rows : List (Row S F))
    (labels : Labels S) : Prop where
  map_ins : rows.map Row.ins = prog
  spots : st.spots = addrs (rows.map Row.atLong) org fun _ => none
  eras : st.eras = erasOf (rows.map Row.atLong) 0 fun _ => none
  grows : ∀ a b, prog = a ++ b → st.grows (aligns a) = wide a
  laid_le : ∀ r ∈ rows, r.laid ≤ r.long + slack r.ins
  still : ∀ a r b, rows = a ++ r :: b → Still r.ins →
    ∃ c, lowerWith be (flagidiom be r.ins (b.map Row.ins)) = .ok c ∧ r.laid = total c
  last : ∀ p l k x q, rows = p ++ x :: q → x.ins = .label l k → l ∉ names (q.map Row.ins) →
    labels l = some (labelAddr k (org + sizes (p.map Row.atLaid)))

/-- From a form that is not still to a label whose era is no earlier, the final distance lies between zero and the
pessimistic one with the widest pads on top. -/
theorem Whole.near {be : Backend S F K E} {st : Plumb S} {prog : List (Ins S F)} {org : ℤ} {rows : List (Row S F)}
    {labels : Labels S} (w : Whole be st prog org rows labels) (hinside : Inside be prog) {pre post : List (Row S F)}
    {r : Row S F} (hrows : rows = pre ++ r :: post) (hr : ¬Still r.ins) (hlabel : ∀ nm k, r.ins ≠ .label nm k) {l : S}
    (haim : ∃ ins ∈ prog, aim ins = some l) {s : ℤ} {e : ℕ} (hs : st.spots l = some s) (he : st.eras l = some e)
    (hle : aligns (pre.map Row.ins) ≤ e) :
    ∃ t', labels l = some t' ∧
      Toward (t' - (org + sizes (pre.map Row.atLaid)))
        (s + (st.grows e - st.grows (aligns (pre.map Row.ins))) - (org + sizes (pre.map Row.atLong))) := by
  have hmem : l ∈ names (rows.map Row.ins) := by
    by_contra hnot
    rw [w.spots, addrs, pins_of_notMem _ _ (by rwa [map_atLong_fst])] at hs
    cases hs
  obtain ⟨p, k, x, q, hlast, hx, hq⟩ := exists_last_row hmem
  have hsplit : rows.map Row.atLong = p.map Row.atLong ++ (.label l k, x.long) :: q.map Row.atLong := by
    simp [hlast, Row.atLong, hx]
  have hq' : l ∉ names ((q.map Row.atLong).map Prod.fst) := by rwa [map_atLong_fst]
  have hs' : s = labelAddr k (org + sizes (p.map Row.atLong)) := by
    rw [w.spots, addrs_last hsplit hq'] at hs
    exact (Option.some.inj hs).symm
  have he' : e = aligns (p.map Row.ins) := by
    rw [w.eras, erasOf_last hsplit hq', map_atLong_fst, Nat.zero_add] at he
    exact (Option.some.inj he).symm
  have hgrow : st.grows e = wide (p.map Row.ins) := by
    rw [he']
    exact w.grows _ _ (by rw [← w.map_ins, hlast, List.map_append])
  have hgrow' : st.grows (aligns (pre.map Row.ins)) = wide (pre.map Row.ins) :=
    w.grows _ _ (by rw [← w.map_ins, hrows, List.map_append])
  have hoff : ∀ off, k = some off → 0 ≤ off ∧
      ∃ y z, q = y :: z ∧ Still y.ins ∧ off ≤ y.laid := by
    rintro off rfl
    have hprog : prog = p.map Row.ins ++ .label l (some off) :: q.map Row.ins := by
      rw [← w.map_ins, hlast, List.map_append, List.map_cons, hx]
    obtain ⟨ins, rest, c, hcons, hstill, hc, h0, hk⟩ := hinside _ _ _ _ hprog haim
    obtain ⟨y, z, rfl, rfl, rfl⟩ := List.map_eq_cons_iff.mp hcons
    obtain ⟨c', hc', hlaid⟩ := w.still (p ++ [x]) y z (by rw [hlast]; simp) hstill
    obtain rfl := Except.ok.inj (hc.symm.trans hc')
    exact ⟨h0, y, z, rfl, hstill, hlaid ▸ hk⟩
  refine ⟨_, w.last p l k x q hlast hx hq, ?_⟩
  rw [hs', hgrow, hgrow']
  obtain ⟨m, hpm, htail⟩ | ⟨m, hpm, htail⟩ := List.append_eq_append_iff.mp (hrows.symm.trans hlast)
  case inl =>
    subst hpm
    have hm := sizes_laid_le fun y (hy : y ∈ m) => w.laid_le y (by rw [hlast]; simp [hy])
    have hk : k = none ∨ ∃ off, k = some off ∧ 0 ≤ off := by
      cases k with
      | none => exact .inl rfl
      | some off => exact .inr ⟨off, rfl, (hoff off rfl).1⟩
    left
    obtain rfl | ⟨off, rfl, h0⟩ := hk <;>
      simp only [labelAddr, List.map_append, sizes_append, wide_append, Nat.cast_add] <;> constructor <;> omega
  case inr =>
    subst hpm
    obtain ⟨m', rfl⟩ : ∃ m', m = x :: m' := by
      cases m with
      | nil =>
          obtain ⟨rfl, -⟩ := List.cons_eq_cons.mp htail
          exact absurd hx (hlabel l k)
      | cons y m' =>
          obtain ⟨rfl, -⟩ := List.cons_eq_cons.mp htail
          exact ⟨m', rfl⟩
    obtain ⟨-, rfl⟩ := List.cons_eq_cons.mp htail
    have hm := sizes_laid_le fun y (hy : y ∈ m') => w.laid_le y (by rw [hlast]; simp [hy])
    have hx' := w.laid_le x (by rw [hlast]; simp)
    have hwide : wide (m'.map Row.ins) = 0 := by
      refine wide_eq_zero ?_
      rw [he', List.map_append, aligns_append, List.map_cons, aligns_cons] at hle
      omega
    have hk : k = none ∨ ∃ off, k = some off ∧ 0 ≤ off ∧ off ≤ sizes (m'.map Row.atLaid) := by
      cases k with
      | none => exact .inl rfl
      | some off =>
          obtain ⟨h0, y, z, hcons, hstill, hlaid⟩ := hoff off rfl
          cases m' with
          | nil =>
              obtain ⟨rfl, -⟩ := List.cons_eq_cons.mp hcons
              exact absurd hstill hr
          | cons y' m' =>
              obtain ⟨rfl, -⟩ := List.cons_eq_cons.mp hcons
              refine .inr ⟨off, rfl, h0, ?_⟩
              simp only [List.map_cons, sizes_cons, Row.atLaid, Nat.cast_add]
              omega
    have hslack : slack x.ins = 0 := by rw [hx]; rfl
    right
    obtain rfl | ⟨off, rfl, h0, hoff⟩ := hk <;>
      simp only [labelAddr, List.map_append, List.map_cons, sizes_append, sizes_cons, wide_append, wide_cons, hwide,
        hslack, Row.atLaid, Row.atLong, Nat.cast_add] <;> constructor <;> omega

/-! ### Soundness -/

/-- Laid soundly from an address: labels at the bytes after them, pads up to the alignment, and every form either as it
was lowered or in an encoding that reaches its label's final address, which lies between the form and where the hook was
told. -/
inductive Sound (be : Backend S F K E) (short : Ins S F → List (Item S K) → ℤ → List (Item S K))
    (reach : List (Item S K) → ℤ → Prop) (labels : Labels S) : List (Ins S F) → ℤ → List (Item S K) → Prop where
  | nil (a) : Sound be short reach labels [] a []
  | label {nm k p a out} (h : nm ∈ names p ∨ labels nm = some (labelAddr k a)) :
      Sound be short reach labels p a out → Sound be short reach labels (.label nm k :: p) a out
  | align {n : ℕ+} {fill p a out} (h : (n : ℤ) ∣ a + total (padIns be a n fill)) :
      Sound be short reach labels p (a + total (padIns be a n fill)) out →
      Sound be short reach labels (.align n fill :: p) a (padIns be a n fill ++ out)
  | keep {ins p a out} {c : List (Item S K)} (hlabel : ∀ nm k, ins ≠ .label nm k) (halign : ∀ n fill, ins ≠ .align n fill)
      (hc : lowerWith be (flagidiom be ins p) = .ok c) :
      Sound be short reach labels p (a + total c) out → Sound be short reach labels (ins :: p) a (c ++ out)
  | short {ins l p a out t rel} {c : List (Item S K)} (haim : aim ins = some l)
      (hc : lowerWith be (flagidiom be ins p) = .ok c) (hne : short ins c rel ≠ []) (hl : labels l = some t)
      (htoward : Toward (t - a) rel) (hreach : reach (short ins c rel) (t - a)) :
      Sound be short reach labels p (a + total (short ins c rel)) out →
      Sound be short reach labels (ins :: p) a (short ins c rel ++ out)
  | fused {fuse x y c l p a out t rel} (hfuse : be.fuse = some fuse) (hne : fuse (.cmp x y) (.br c l) rel ≠ [])
      (hl : labels l = some t) (htoward : Toward (t - a) rel) (hreach : reach (fuse (.cmp x y) (.br c l) rel) (t - a)) :
      Sound be short reach labels p (a + total (fuse (.cmp x y) (.br c l) rel)) out →
      Sound be short reach labels (.cmp x y :: .br c l :: p) a (fuse (.cmp x y) (.br c l) rel ++ out)

/-- What pass two lays after any part of the program is sound. -/
theorem Stitched.sound {be : Backend S F K E} {short : Ins S F → List (Item S K) → ℤ → List (Item S K)}
    {reach : List (Item S K) → ℤ → Prop} (hooks : Hooks be short reach) {st : Plumb S} {lg : S → Bool}
    {prog : List (Ins S F)} {org : ℤ} {all : List (Row S F)} {labels : Labels S} (w : Whole be st prog org all labels)
    (hinside : Inside be prog) {p : List (Ins S F)} {pa fa : ℤ} {era : ℕ} {rows : List (Row S F)}
    {out : List (Item S K)} (h : Stitched be short st lg p pa fa era rows out) (pre : List (Row S F))
    (hall : all = pre ++ rows) (hpa : pa = org + sizes (pre.map Row.atLong)) (hfa : fa = org + sizes (pre.map Row.atLaid))
    (hera : era = aligns (pre.map Row.ins)) : Sound be short reach labels p fa out := by
  induction h generalizing pre with
  | nil => exact .nil _
  | @label nm off p pa fa era rows out hrest ih =>
      refine .label ?_ (ih (pre ++ [⟨.label nm off, 0, 0⟩]) (by simp [hall]) (by simp [hpa, Row.atLong])
        (by simp [hfa, Row.atLaid]) (by simp [hera, turn]))
      by_cases hmem : nm ∈ names p
      · exact .inl hmem
      · rw [← hrest.map_ins] at hmem
        exact .inr (hfa ▸ w.last pre nm off _ rows hall rfl hmem)
  | @fused fuse a b c l p pa fa era rows out t ca cb fu hfuse hca hcb ht hfu hne hrest ih =>
      have hle := hooks.fuse_le _ _ _ _ _ _ _ _ _ hfuse hca hcb (hfu ▸ hne)
      obtain ⟨hs, he⟩ := tgtOf_eq_some ht
      have hmem : ∃ ins ∈ prog, aim ins = some l :=
        ⟨.br c l, by rw [← w.map_ins, hall]; simp, rfl⟩
      obtain ⟨t', hl, htoward⟩ := w.near hinside hall id (fun _ _ => nofun) hmem hs he hera.ge
      rw [← hpa, ← hfa, hera, sub_self, add_zero] at htoward
      subst hfu
      refine .fused hfuse hne hl htoward (hooks.toward _ _ _ htoward (hooks.fuse_reach _ _ _ _ _ _ hfuse hne)) ?_
      refine ih (pre ++ [_, _]) (by rw [hall, List.append_assoc]; rfl) ?_ ?_ (by simp [hera, turn])
      · simp [hpa, Row.atLong, Int.add_assoc]
      · simp only [hfa, Row.atLaid, List.map_append, List.map_cons, List.map_nil, sizes_append, sizes_cons, sizes_nil]
        omega
  | @align n fill p pa fa era rows out a hrest ih =>
      refine .align ?_ ?_
      · rw [padIns_total]
        exact dvd_add_padLen fa n
      · rw [padIns_total]
        exact ih (pre ++ [_]) (by rw [hall, List.append_assoc]; rfl) (by simp [hpa, Row.atLong, Int.add_assoc])
          (by simp [hfa, Row.atLaid, Int.add_assoc]) (by simp [hera, turn])
  | @short ins l p pa fa era rows out t c sc haim hc ht hsc hne hrest ih =>
      obtain ⟨s, e, hs, he, hle, rfl⟩ := targetOf_eq_some haim ht
      have hmem : ∃ ins ∈ prog, aim ins = some l := ⟨ins, by rw [← w.map_ins, hall]; simp, haim⟩
      have hlabel : ∀ nm k, ins ≠ .label nm k := by
        rintro nm k rfl
        cases haim
      have hturn : turn ins = 0 := by
        cases ins with
        | align n fill => cases haim
        | _ => rfl
      obtain ⟨t', hl, htoward⟩ := w.near hinside hall (not_still_of_aim haim) hlabel hmem hs he (hera ▸ hle)
      rw [← hpa, ← hfa, ← hera] at htoward
      subst hsc
      refine .short haim hc hne hl htoward (hooks.toward _ _ _ htoward (hooks.short_reach _ _ _ _ hc hne)) ?_
      exact ih (pre ++ [_]) (by rw [hall, List.append_assoc]; rfl) (by simp [hpa, Row.atLong, Int.add_assoc])
        (by simp [hfa, Row.atLaid, Int.add_assoc]) (by simp [hera, hturn])
  | @keep ins p pa fa era rows out c hlabel halign hc hrest ih =>
      have hturn : turn ins = 0 := by
        cases ins with
        | align n fill => exact absurd rfl (halign n fill)
        | _ => rfl
      exact .keep hlabel halign hc (ih (pre ++ [_]) (by rw [hall, List.append_assoc]; rfl)
        (by simp [hpa, Row.atLong, Int.add_assoc]) (by simp [hfa, Row.atLaid, Int.add_assoc]) (by simp [hera, hturn]))

/-- What `laylax` answers comes of its two passes. -/
theorem laylax_stitched {be : Backend S F K E} {short : Ins S F → List (Item S K) → ℤ → List (Item S K)}
    (hshort : be.short = some short) {prog : List (Ins S F)} {org : ℤ} {labels : Labels S} {lg : S → Bool}
    {r : List (Item S K) × Labels S} (h : laylax be prog org labels lg = .ok r) :
    ∃ st rows out cs, Plumbed be prog org 0 ⟨fun _ => none, fun _ => none, fun _ => 0⟩ [] (cs, st) cs ∧
      rows.map Row.atLong = longs prog cs ∧ Stitched be short st lg prog org org 0 rows out ∧
      r = (out, addrs (rows.map Row.atLaid) org labels) := by
  simp only [laylax, hshort] at h
  split at h
  case h_1 => cases h
  case h_2 chunks st hplumb =>
    obtain ⟨cs, hc⟩ := plumb_plumbed be prog org 0 _ [] hplumb
    obtain rfl : chunks = cs := by simpa using hc.answer
    obtain ⟨rows, out, hst, hlong, heq⟩ := stitch_stitched st lg hc.chunks org org 0 [] labels
    rw [heq] at h
    exact ⟨st, rows, out, chunks, hc, hlong, hst, by simpa using (Except.ok.inj h).symm⟩

theorem addrs_row {rows p q : List (Row S F)} {x : Row S F} {l : S} {k : Option ℤ} (hrows : rows = p ++ x :: q)
    (hx : x.ins = .label l k) (hl : l ∉ names (q.map Row.ins)) (org : ℤ) (labels : Labels S) :
    addrs (rows.map Row.atLaid) org labels l = some (labelAddr k (org + sizes (p.map Row.atLaid))) := by
  have hsplit : rows.map Row.atLaid = p.map Row.atLaid ++ (.label l k, x.laid) :: q.map Row.atLaid := by
    simp [hrows, Row.atLaid, hx]
  exact addrs_last hsplit (by rwa [map_atLaid_fst]) org labels

/-- Laid by two passes, every label is at the bytes after it. -/
theorem Stitched.placed {be : Backend S F K E} {short : Ins S F → List (Item S K) → ℤ → List (Item S K)}
    {st : Plumb S} {lg : S → Bool} {p : List (Ins S F)} {pa fa : ℤ} {era : ℕ} {rows : List (Row S F)}
    {out : List (Item S K)} (h : Stitched be short st lg p pa fa era rows out) {labels : Labels S}
    (hlast : ∀ a l k x b, rows = a ++ x :: b → x.ins = .label l k → l ∉ names (b.map Row.ins) →
      labels l = some (labelAddr k (fa + sizes (a.map Row.atLaid)))) : Placed labels p fa out := by
  induction h with
  | nil => exact .nil _
  | @label nm off p pa fa era rows out hrest ih =>
      refine .label ?_ (ih fun a l k x b hrows hx hl => ?_)
      · by_cases hmem : nm ∈ names p
        · exact .inl hmem
        · rw [← hrest.map_ins] at hmem
          exact .inr (by simpa using hlast [] nm off _ rows rfl rfl hmem)
      · have h := hlast (_ :: a) l k x b (by rw [hrows]; rfl) hx hl
        rw [List.map_cons, sizes_cons] at h
        simpa [Row.atLaid] using h
  | @fused fuse a b c l p pa fa era rows out t ca cb fu hfuse hca hcb ht hfu hne hrest ih =>
      have hplaced : Placed labels p (fa + total fu + total ([] : List (Item S K))) out := by
        rw [total_nil, Nat.cast_zero, add_zero]
        refine ih fun a l k x b hrows hx hl => ?_
        have h := hlast (_ :: _ :: a) l k x b (by rw [hrows]; rfl) hx hl
        rw [List.map_cons, List.map_cons, sizes_cons, sizes_cons] at h
        rw [h]
        simp only [Row.atLaid]
        congr 2
        omega
      exact .chunk fu (fun _ _ => nofun) (.chunk [] (fun _ _ => nofun) hplaced)
  | @align n fill p pa fa era rows out a hrest ih =>
      refine .chunk _ (fun _ _ => nofun) ?_
      rw [padIns_total]
      refine ih fun a l k x b hrows hx hl => ?_
      simpa [Row.atLaid, Int.add_assoc] using hlast (_ :: a) l k x b (by rw [hrows]; rfl) hx hl
  | @short ins l p pa fa era rows out t c sc haim hc ht hsc hne hrest ih =>
      have hlabel : ∀ nm k, ins ≠ .label nm k := by
        rintro nm k rfl
        cases haim
      refine .chunk _ hlabel (ih fun a l k x b hrows hx hl => ?_)
      simpa [Row.atLaid, Int.add_assoc] using hlast (_ :: a) l k x b (by rw [hrows]; rfl) hx hl
  | @keep ins p pa fa era rows out c hlabel halign hc hrest ih =>
      refine .chunk _ hlabel (ih fun a l k x b hrows hx hl => ?_)
      simpa [Row.atLaid, Int.add_assoc] using hlast (_ :: a) l k x b (by rw [hrows]; rfl) hx hl

theorem laylax_lays (be : Backend S F K E) (prog : List (Ins S F)) (org : ℤ) (labels : Labels S) (lg : S → Bool)
    {r : List (Item S K) × Labels S} (h : laylax be prog org labels lg = .ok r) : Lays labels [] prog org r := by
  cases hshort : be.short with
  | none =>
      simp only [laylax, hshort] at h
      exact lay_lays be prog org [] labels h
  | some short =>
      obtain ⟨st, rows, out, cs, hc, hlong, hst, rfl⟩ := laylax_stitched hshort h
      refine ⟨out, rfl, hst.placed fun a l k x b hrows hx hl => addrs_row hrows hx hl org labels, ?_⟩
      intro l hl
      exact pins_of_notMem _ _ (by rwa [map_atLaid_fst, hst.map_ins]) _ _

/-- For hooks that keep their promise, whatever `laylax` lays is laid soundly. -/
theorem laylax_sound {be : Backend S F K E} {short : Ins S F → List (Item S K) → ℤ → List (Item S K)}
    {reach : List (Item S K) → ℤ → Prop} (hshort : be.short = some short) (hooks : Hooks be short reach)
    {prog : List (Ins S F)} (hinside : Inside be prog) {org : ℤ} {labels : Labels S} {lg : S → Bool}
    {r : List (Item S K) × Labels S} (h : laylax be prog org labels lg = .ok r) :
    Sound be short reach r.2 prog org r.1 ∧ ∀ l ∉ names prog, r.2 l = labels l := by
  obtain ⟨st, rows, out, cs, hc, hlong, hst, rfl⟩ := laylax_stitched hshort h
  have w : Whole be st prog org rows (addrs (rows.map Row.atLaid) org labels) :=
    { map_ins := hst.map_ins
      spots := by rw [hlong]; exact hc.spots
      eras := by rw [hlong]; exact hc.eras
      grows := fun a b hab => by simpa using hc.grows a b hab
      laid_le := hst.laid_le hooks
      still := fun _ _ _ hrows hstill => hst.still hrows hstill
      last := fun _ _ _ _ _ hrows hx hl => addrs_row hrows hx hl org labels }
  refine ⟨hst.sound hooks w hinside [] rfl (by simp) (by simp) rfl, ?_⟩
  intro l hl
  exact pins_of_notMem _ _ (by rwa [map_atLaid_fst, hst.map_ins]) _ _

/-! ### The hook of x86 -/

/-- A form of two bytes whose field holds the distance from its end. -/
def X86Reach (sc : List (Item String X86Fix)) (d : ℤ) : Prop := total sc = 2 ∧ fits8 (d - 2) = true

theorem x86Short_hooks : Hooks x64Rows x86Short X86Reach where
  short_le := by
    intro ins rest c rel hc hne
    cases ins with
    | jmp l =>
        obtain rfl := Except.ok.inj hc
        simp only [x86Short]
        split <;> simp [itemLen, emitJmp]
    | br cc l =>
        simp only [lowerWith, flagidiom, x64Rows, x64Row, emitBr] at hc
        simp only [x86Short]
        cases hcc : x86Cc cc with
        | none => simp
        | some o =>
            rw [hcc] at hc
            obtain rfl := Except.ok.inj hc
            dsimp only
            split <;> simp [itemLen]
    | _ => simp [x86Short] at hne
  short_reach := by
    intro ins rest c rel _ hne
    simp only [x86Short] at hne ⊢
    split at hne
    case isFalse => exact absurd rfl hne
    case isTrue hfits =>
      rw [if_pos hfits]
      cases ins with
      | jmp l => exact ⟨rfl, hfits⟩
      | br cc l =>
          dsimp only at hne ⊢
          cases hcc : x86Cc cc with
          | none => simp [hcc] at hne
          | some o => exact ⟨rfl, hfits⟩
      | _ => exact absurd rfl hne
  fuse_le := by
    intro fuse a b c l rest ca cb rel hfuse
    cases hfuse
  fuse_reach := by
    intro fuse a b c l rel hfuse
    cases hfuse
  toward := by
    rintro sc d d' h ⟨hlen, hfits⟩
    refine ⟨hlen, ?_⟩
    simp only [fits8, decide_eq_true_eq] at hfits ⊢
    obtain h | h := h <;> omega

/-- What reaches is patched. -/
theorem X86Reach.patch {sc : List (Item String X86Fix)} {a t aux : ℤ} (h : X86Reach sc (t - a)) :
    x86Patch .rel8 t (a + 1) 1 aux = .ok (le 1 (t - (a + 2))) := by
  have hd : t - (a + 1 + (1 : ℕ)) = t - a - 2 := by omega
  simp only [x86Patch, hd, h.2, if_true]
  congr 2
  omega

/-- A jump back to a label just before it. -/
theorem laylax_sound_back :
    Sound x64Rows x86Short X86Reach (pin (fun _ => none) "l" 0) [.label "l" none, .jmp "l"] 0
      [.byte 235, .fix 1 .rel8 "l" 0] ∧
    ∀ l ∉ names [Ins.label "l" none, (.jmp "l" : Ins String X64Row)], pin (fun _ => none) "l" (0 : ℤ) l = none := by
  have hinside : Inside x64Rows [.label "l" none, .jmp "l"] := by
    rintro (_ | ⟨x, _ | ⟨y, _ | ⟨z, p⟩⟩⟩) l k q h <;> simp at h
  have hrun : laylax x64Rows [.label "l" none, .jmp "l"] 0 (fun _ => none) (fun _ => false) =
      .ok ([.byte 235, .fix 1 .rel8 "l" 0], pin (fun _ => none) "l" 0) := rfl
  exact laylax_sound rfl x86Short_hooks hinside hrun

/-- A label `134` bytes on from the start, two jumps after it. -/
def strayProg : List (Ins String X64Row) := [.label "a" (some 134), .jmp "b", .label "b" none, .jmp "a"]

/-- The hook keeps its promise, yet the last jump is laid short and its field does not hold the distance in the end. -/
theorem laylax_stray :
    Hooks x64Rows x86Short X86Reach ∧
      ∃ items labels, laylax x64Rows strayProg 0 (fun _ => none) (fun _ => false) = .ok (items, labels) ∧
        resolve x64Rows items labels 0 = .error (.backend (.rel8Range 130)) :=
  ⟨x86Short_hooks, _, _, rfl, rfl⟩

end LoveRuntime.Holo
