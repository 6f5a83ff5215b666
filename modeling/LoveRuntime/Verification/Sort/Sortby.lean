import Mathlib.Data.Nat.Log
import LoveRuntime.Verification.Sort.Radix

/-! # `sortby`

Between two compares the frame stands for a merging of runs, with every element where the
collector has it; a compare answered is a compare answered there. -/

namespace LoveRuntime.Sorting

open Function MergeRuns Merging

variable {f : ℕ → ℕ} {s : Sortby} {t : Merging ℕ} {k : ℕ} {l : List ℕ}

namespace Sortby

/-! ## The frame -/

/-- The frame stands for `t`, whose elements are at `f`. -/
structure Tracks (f : ℕ → ℕ) (s : Sortby) (t : Merging ℕ) : Prop where
  width : t.w = s.w
  out : cells s.vb 0 s.o = t.out.map f
  left : cells s.va s.x (s.m - s.x) = t.left.map f
  right : cells s.va s.y (s.hi - s.y) = t.right.map f
  rest : cells s.va s.hi (s.n - s.hi) = t.rest.map f
  lo_lt : s.lo < s.n
  x_ge : s.lo ≤ s.x
  x_le : s.x ≤ s.m
  y_ge : s.m ≤ s.y
  y_le : s.y ≤ s.hi
  hi_eq : s.hi = min (s.lo + 2 * s.w) s.n
  o_eq : s.o + s.m = s.x + s.y

namespace Tracks

theorem length_left (h : Tracks f s t) : t.left.length = s.m - s.x := by
  rw [← List.length_map (f := f), ← h.left, length_cells]

theorem length_right (h : Tracks f s t) : t.right.length = s.hi - s.y := by
  rw [← List.length_map (f := f), ← h.right, length_cells]

theorem length_rest (h : Tracks f s t) : t.rest.length = s.n - s.hi := by
  rw [← List.length_map (f := f), ← h.rest, length_cells]

theorem length_out (h : Tracks f s t) : t.out.length = s.o := by
  rw [← List.length_map (f := f), ← h.out, length_cells]

theorem length_elems (h : Tracks f s t) : t.elems.length = s.n := by
  have h1 := h.x_le
  have h2 := h.y_le
  have h3 := h.hi_eq
  have h4 := h.o_eq
  rw [Merging.elems, List.length_append, List.length_append, List.length_append, h.length_out,
    h.length_left, h.length_right, h.length_rest]
  omega

end Tracks

/-- Where the loop of the step leaves the frame. -/
inductive Stands (f : ℕ → ℕ) (s : Sortby) (t : Merging ℕ) : Prop
  | waiting (hpend : s.pend = .waiting) (htracks : Tracks f s t) (hx : s.x < s.m) (hy : s.y < s.hi)
  | done (hpend : s.pend = .done) (hended : Ended t) (hanswer : s.answer = t.elems.map f)

/-- The first two runs of a pass. -/
theorem tracks_start {w : ℕ} (hn : 0 < s.n) (hl : cells s.va 0 s.n = l.map f) (hw : s.w = w)
    (hlo : s.lo = 0) (hx : s.x = 0) (ho : s.o = 0) (hy : s.y = min (0 + w) s.n)
    (hhi : s.hi = min (0 + 2 * w) s.n) : Tracks f s (Merging.start w l) := by
  have hm : s.m = min (0 + w) s.n := by rw [Sortby.m, hlo, hw]
  subst hw
  refine ⟨rfl, ?_, ?_, ?_, ?_, ?_, ?_, ?_, ?_, ?_, ?_, ?_⟩
  · rw [ho, cells_zero]
    rfl
  · rw [Merging.start, List.map_take, ← hl, take_cells, hm, hx]
    congr 1
    omega
  · rw [Merging.start, List.map_take, List.map_drop, ← hl, drop_cells, take_cells, hy, hhi]
    by_cases h : s.w ≤ s.n
    · rw [min_eq_left (by omega)]
      congr 1
      omega
    · rw [show min (0 + 2 * s.w) s.n - min (0 + s.w) s.n = 0 by omega,
        show min s.w (s.n - s.w) = 0 by omega, cells_zero, cells_zero]
  · rw [Merging.start, List.map_drop, ← hl, drop_cells, hhi]
    by_cases h : 2 * s.w ≤ s.n
    · rw [min_eq_left (by omega), Nat.zero_add]
    · rw [show s.n - min (0 + 2 * s.w) s.n = 0 by omega, show s.n - 2 * s.w = 0 by omega, cells_zero,
        cells_zero]
  all_goals omega

/-- What the copies at the end of a merge leave laid out. -/
theorem Tracks.laid (h : Tracks f s t) :
    cells (copyRun s.va s.y s.hi (s.o + (s.m - s.x)) (copyRun s.va s.x s.m s.o s.vb)) 0 s.hi =
      (t.out ++ (t.left ++ t.right)).map f := by
  have hleft := copyRun_wrote s.va s.x s.m s.o s.vb
  have hright := copyRun_wrote s.va s.y s.hi (s.o + (s.m - s.x)) (copyRun s.va s.x s.m s.o s.vb)
  have hboth := hleft.append (by rwa [length_cells])
  have h1 := h.x_le
  have h2 := h.y_le
  have h3 := h.o_eq
  have hcells := hboth.cells
  have hbefore := hboth.before (Nat.le_of_eq (Nat.zero_add s.o))
  rw [List.length_append, length_cells, length_cells] at hcells
  generalize copyRun s.va s.y s.hi (s.o + (s.m - s.x)) (copyRun s.va s.x s.m s.o s.vb) = vb at *
  rw [show s.hi = s.o + (s.m - s.x + (s.hi - s.y)) by omega, cells_append, hbefore, Nat.zero_add, hcells,
    List.map_append, List.map_append, ← h.out, ← h.left, ← h.right]

theorem Tracks.used (h : Tracks f s t) (hge : ¬ (s.x < s.m ∧ s.y < s.hi)) :
    t.left = [] ∨ t.right = [] := by
  have hl := h.length_left
  have hr := h.length_right
  rcases not_and_or.mp hge with hx | hy
  · exact .inl (List.length_eq_zero_iff.mp (by omega))
  · exact .inr (List.length_eq_zero_iff.mp (by omega))

/-- The next two runs of the pass. -/
theorem Tracks.next (h : Tracks f s t) {s' : Sortby} (hlo : s.lo + 2 * s.w < s.n) (hw : s'.w = s.w)
    (hn : s'.n = s.n) (hva : s'.va = s.va)
    (hvb : cells s'.vb 0 s.hi = (t.out ++ (t.left ++ t.right)).map f) (hlo' : s'.lo = s.lo + 2 * s.w)
    (hx : s'.x = s'.lo) (ho : s'.o = s'.lo) (hy : s'.y = min (s'.lo + s'.w) s'.n)
    (hhi : s'.hi = min (s'.lo + 2 * s'.w) s'.n) :
    Tracks f s' ⟨t.w, t.out ++ (t.left ++ t.right), t.rest.take t.w, (t.rest.drop t.w).take t.w,
      t.rest.drop (2 * t.w)⟩ := by
  have hm : s'.m = min (s'.lo + s'.w) s'.n := rfl
  have hend : s.hi = s'.lo := by
    rw [h.hi_eq, hlo']
    omega
  have hwidth := h.width
  refine ⟨?_, ?_, ?_, ?_, ?_, ?_, ?_, ?_, ?_, ?_, ?_, ?_⟩
  · rw [hw, hwidth]
  · rw [ho, ← hend, hvb]
  · rw [List.map_take, ← h.rest, take_cells, hm, hx, hva, hend, hw, hwidth, hn]
    congr 1
    omega
  · rw [List.map_take, List.map_drop, ← h.rest, drop_cells, take_cells, hy, hhi, hva, hend, hw, hwidth, hn]
    by_cases hfit : s'.lo + s.w ≤ s.n
    · rw [min_eq_left hfit]
      congr 1
      omega
    · rw [show min (s'.lo + 2 * s.w) s.n - min (s'.lo + s.w) s.n = 0 by omega,
        show min s.w (s.n - s'.lo - s.w) = 0 by omega, cells_zero, cells_zero]
  · rw [List.map_drop, ← h.rest, drop_cells, hhi, hva, hend, hw, hwidth, hn]
    by_cases hfit : s'.lo + 2 * s.w ≤ s.n
    · rw [min_eq_left hfit]
      congr 1
      omega
    · rw [show s.n - min (s'.lo + 2 * s.w) s.n = 0 by omega, show s.n - s'.lo - 2 * s.w = 0 by omega,
        cells_zero, cells_zero]
  all_goals omega

theorem Tracks.rest_nil (h : Tracks f s t) (hend : s.n ≤ s.lo + 2 * s.w) :
    t.rest = [] ∧ s.hi = s.n := by
  have hhi := h.hi_eq
  have hrest := h.length_rest
  exact ⟨List.length_eq_zero_iff.mp (by omega), by omega⟩

/-- So many compares answered are paid for by the passes made, and by what this one laid out. -/
def Paid (k : ℕ) (s : Sortby) : Prop :=
  ∃ p, s.w = 2 ^ p ∧ k ≤ p * s.n + s.o ∧ s.o ≤ s.n ∧ s.w < s.n

theorem advance_spec (h : Tracks f s t) :
    ∃ t', Moves t t' ∧ Stands f s.advance t' ∧ ∀ k, Paid k s → Paid k s.advance := by
  induction s using Sortby.advance.induct generalizing t with
  | case1 s hlt =>
      rw [Sortby.advance, if_pos hlt]
      exact ⟨t, .refl, .waiting rfl { h with } hlt.1 hlt.2, fun k hk => hk⟩
  | case2 s hge lo hend =>
      rename_i hw
      have hlo : s.n ≤ s.lo + 2 * s.w := hend
      obtain ⟨hrest, hhi⟩ := h.rest_nil hlo
      have hlaid := h.laid
      rw [Sortby.advance, if_neg hge]
      simp only [dif_pos hlo, dif_pos hw]
      refine ⟨t, .refl, .done rfl ⟨h.used hge, hrest, ?_⟩ ?_, fun k hk => hk⟩
      · rw [h.length_elems, h.width]
        exact hw
      · rw [Merging.elems, hrest, List.append_nil, ← hlaid, Sortby.answer, ← hhi]
  | case3 s hge vb lo hend hw =>
      rename_i ih
      have hlo : s.n ≤ s.lo + 2 * s.w := hend
      obtain ⟨hrest, hhi⟩ := h.rest_nil hlo
      have hlaid := h.laid
      have hlen := h.length_elems
      have hwidth := h.width
      have hmove : Merging.Move t (Merging.start (2 * t.w) (t.out ++ (t.left ++ t.right))) :=
        .pass (h.used hge) hrest (by omega)
      rw [hwidth] at hmove
      rw [Sortby.advance, if_neg hge]
      simp only [dif_pos hlo, dif_neg hw]
      have hlo_lt := h.lo_lt
      obtain ⟨t', hmoves, hstands, hpaid⟩ :=
        ih (tracks_start (by simp only; omega) (by simp only; rw [← hlaid, ← hhi]) rfl rfl rfl rfl rfl rfl)
      refine ⟨t', .head hmove hmoves, hstands, fun k hk => hpaid k ?_⟩
      obtain ⟨p, hp, hk, ho, -⟩ := hk
      refine ⟨p + 1, ?_, ?_, Nat.zero_le _, not_le.mp hw⟩
      · simp only
        rw [hp, pow_succ, Nat.mul_comm]
      · simp only
        rw [Nat.succ_mul]
        omega
  | case4 s hge vb lo hmore =>
      rename_i ih
      have hlo : ¬ s.n ≤ s.lo + 2 * s.w := hmore
      have hhi := h.hi_eq
      have hrest := h.length_rest
      have hmove := Merging.Move.runs (h.used hge) (List.ne_nil_of_length_pos (by omega))
      rw [Sortby.advance, if_neg hge]
      simp only [dif_neg hlo]
      obtain ⟨t', hmoves, hstands, hpaid⟩ :=
        ih (h.next (not_le.mp hlo) rfl rfl rfl h.laid rfl rfl rfl rfl rfl)
      refine ⟨t', .head hmove hmoves, hstands, fun k hk => hpaid k ?_⟩
      obtain ⟨p, hp, hk, ho, hwn⟩ := hk
      have h1 := h.x_le
      have h2 := h.y_le
      have h3 := h.o_eq
      refine ⟨p, hp, ?_, ?_, hwn⟩
      · simp only
        omega
      · simp only
        omega

/-! ## A reply -/

theorem Tracks.left_cons (h : Tracks f s t) (hx : s.x < s.m) :
    ∃ x xs, t.left = x :: xs ∧ f x = s.va s.x ∧ cells s.va (s.x + 1) (s.m - (s.x + 1)) = xs.map f := by
  have hleft := h.left
  rw [show s.m - s.x = s.m - (s.x + 1) + 1 by omega, cells_succ] at hleft
  obtain ⟨x, xs, hl, hhead, htail⟩ := List.map_eq_cons_iff.mp hleft.symm
  exact ⟨x, xs, hl, hhead, htail.symm⟩

theorem Tracks.right_cons (h : Tracks f s t) (hy : s.y < s.hi) :
    ∃ y ys, t.right = y :: ys ∧ f y = s.va s.y ∧
      cells s.va (s.y + 1) (s.hi - (s.y + 1)) = ys.map f := by
  have hright := h.right
  rw [show s.hi - s.y = s.hi - (s.y + 1) + 1 by omega, cells_succ] at hright
  obtain ⟨y, ys, hr, hhead, htail⟩ := List.map_eq_cons_iff.mp hright.symm
  exact ⟨y, ys, hr, hhead, htail.symm⟩

theorem out_cells (vb : ℕ → ℕ) (o v : ℕ) : cells (update vb o v) 0 (o + 1) = cells vb 0 o ++ [v] := by
  rw [cells_concat, Nat.zero_add, update_self, (Wrote.one vb o v).before (by omega)]

/-- The element taken, before the loop goes on. -/
def take (s : Sortby) (left : Bool) : Sortby :=
  if left then { s with vb := update s.vb s.o (s.va s.x), x := s.x + 1, o := s.o + 1 }
  else { s with vb := update s.vb s.o (s.va s.y), y := s.y + 1, o := s.o + 1 }

theorem reply_eq (s : Sortby) (left : Bool) : s.reply left = (s.take left).advance := by
  cases left <;> rfl

theorem take_tracks (h : Tracks f s t) (hx : s.x < s.m) (hy : s.y < s.hi) (left : Bool) :
    Tracks f (s.take left) (t.answer left) := by
  have ho := h.o_eq
  have hge := h.x_ge
  cases left with
  | true =>
      obtain ⟨x, xs, hl, hhead, htail⟩ := h.left_cons hx
      refine { h with out := ?_, left := ?_, x_ge := ?_, x_le := hx, o_eq := ?_ }
      · simp only [take, Merging.answer, if_true, hl, List.take_succ_cons, List.take_zero,
          List.map_append, List.map_cons, List.map_nil, hhead, ← h.out]
        exact out_cells _ _ _
      · simp only [take, Merging.answer, if_true, hl, List.tail_cons]
        exact htail
      · simp only [take, if_true]
        omega
      · simp only [take, if_true, Sortby.m] at ho ⊢
        omega
  | false =>
      obtain ⟨y, ys, hr, hhead, htail⟩ := h.right_cons hy
      have hyge := h.y_ge
      refine { h with out := ?_, right := ?_, y_ge := ?_, y_le := hy, o_eq := ?_ }
      · simp only [take, Merging.answer, Bool.false_eq_true, if_false, hr, List.take_succ_cons,
          List.take_zero, List.map_append, List.map_cons, List.map_nil, hhead, ← h.out]
        exact out_cells _ _ _
      · simp only [take, Merging.answer, Bool.false_eq_true, if_false, hr, List.tail_cons]
        exact htail
      · simp only [take, Bool.false_eq_true, if_false, Sortby.m] at hyge ⊢
        omega
      · simp only [take, Bool.false_eq_true, if_false, Sortby.m] at ho ⊢
        omega

theorem take_paid (h : Tracks f s t) (hx : s.x < s.m) (hy : s.y < s.hi) (hp : Paid k s) (left : Bool) :
    Paid (k + 1) (s.take left) := by
  obtain ⟨p, hw, hk, ho, hwn⟩ := hp
  have h1 := h.o_eq
  have h2 := h.hi_eq
  cases left with
  | true =>
      refine ⟨p, hw, ?_, ?_, hwn⟩ <;> simp only [take, if_true] <;> omega
  | false =>
      refine ⟨p, hw, ?_, ?_, hwn⟩ <;> simp only [take, Bool.false_eq_true, if_false] <;> omega

/-! ## Runs -/

/-- The truth of every compare is `le`'s. -/
def Obeys (tells : ℕ → ℕ → Bool → Prop) (l : List ℕ) (le : ℕ → ℕ → Bool) : Prop :=
  ∀ u ∈ l, ∀ v ∈ l, ∀ left, tells u v left → left = le u v

/-- The merging has the list's elements, and comes to the sorted list if the comparator obeys an
order. -/
structure Holds (tells : ℕ → ℕ → Bool → Prop) (l : List ℕ) (t : Merging ℕ) : Prop where
  width : 0 < t.w
  perm : t.elems.Perm l
  result : ∀ le, Obeys tells l le → t.result le = sort le 1 l

variable {tells : ℕ → ℕ → Bool → Prop} {now : ℕ → ℕ} {t' : Merging ℕ}

theorem Holds.moves (h : Holds tells l t) (hmoves : Moves t t') : Holds tells l t' := by
  obtain ⟨hw, helems, hresult⟩ := hmoves.keep h.width
  exact ⟨hw, helems ▸ h.perm, fun le hle => (hresult le).trans (h.result le hle)⟩

theorem Holds.mem (h : Holds tells l t) {z : ℕ} (hz : z ∈ t.left ++ t.right) : z ∈ l := by
  refine h.perm.mem_iff.mp ?_
  rw [Merging.elems, List.mem_append, ← List.append_assoc, List.mem_append]
  exact .inr (.inl hz)

theorem Holds.answer (h : Holds tells l t) {x y : ℕ} {xs ys : List ℕ} (hx : t.left = x :: xs)
    (hy : t.right = y :: ys) {left : Bool} (htells : tells x y left) :
    Holds tells l (t.answer left) := by
  refine ⟨?_, (t.answer_perm left).trans h.perm, fun le hle => ?_⟩
  · cases left <;> exact h.width
  · rw [hle x (h.mem (by simp [hx])) y (h.mem (by simp [hy])) left htells, Merging.answer_result hx hy]
    exact h.result le hle

/-- What every run keeps. -/
structure Inv (tells : ℕ → ℕ → Bool → Prop) (l : List ℕ) (k : ℕ) (now : ℕ → ℕ) (s : Sortby) : Prop where
  inj : Set.InjOn now {u | u ∈ l}
  n_eq : s.n = l.length
  paid : Paid k s
  stands : ∃ t, Holds tells l t ∧ (s.pend = .fresh ∧ Tracks now s t ∨ Stands now s t)

theorem advance_n (s : Sortby) : s.advance.n = s.n := by
  induction s using Sortby.advance.induct with
  | case1 s hlt => rw [Sortby.advance, if_pos hlt]
  | case2 s hge lo hend =>
      rename_i hw
      have hlo : s.n ≤ s.lo + 2 * s.w := hend
      rw [Sortby.advance, if_neg hge]
      simp only [dif_pos hlo, dif_pos hw]
  | case3 s hge vb lo hend hw =>
      rename_i ih
      have hlo : s.n ≤ s.lo + 2 * s.w := hend
      rw [Sortby.advance, if_neg hge]
      simp only [dif_pos hlo, dif_neg hw]
      exact ih
  | case4 s hge vb lo hmore =>
      rename_i ih
      have hlo : ¬ s.n ≤ s.lo + 2 * s.w := hmore
      rw [Sortby.advance, if_neg hge]
      simp only [dif_neg hlo]
      exact ih

theorem take_n (s : Sortby) (left : Bool) : (s.take left).n = s.n := by
  cases left <;> rfl

theorem Inv.fresh (h : Inv tells l k now s) (hpend : s.pend = .fresh) :
    ∃ t, Holds tells l t ∧ Tracks now s t := by
  obtain ⟨-, -, -, t, ht, ⟨-, htracks⟩ | hstands⟩ := h
  · exact ⟨t, ht, htracks⟩
  · cases hstands with
    | waiting hwait _ _ _ =>
        rw [hpend] at hwait
        cases hwait
    | done hdone _ _ =>
        rw [hpend] at hdone
        cases hdone

theorem Inv.waiting (h : Inv tells l k now s) (hpend : s.pend = .waiting) :
    ∃ t, Holds tells l t ∧ Tracks now s t ∧ s.x < s.m ∧ s.y < s.hi := by
  obtain ⟨-, -, -, t, ht, ⟨hfresh, -⟩ | hstands⟩ := h
  · rw [hpend] at hfresh
    cases hfresh
  · cases hstands with
    | waiting _ htracks hx hy => exact ⟨t, ht, htracks, hx, hy⟩
    | done hdone _ _ =>
        rw [hpend] at hdone
        cases hdone

theorem Inv.done (h : Inv tells l k now s) (hdone : s.pend = .done) :
    ∃ t, Holds tells l t ∧ Ended t ∧ s.answer = t.elems.map now := by
  obtain ⟨-, -, -, t, ht, ⟨hfresh, -⟩ | hstands⟩ := h
  · rw [hdone] at hfresh
    cases hfresh
  · cases hstands with
    | waiting hwait _ _ _ =>
        rw [hdone] at hwait
        cases hwait
    | done _ hended hanswer => exact ⟨t, ht, hended, hanswer⟩

theorem setup_inv (hlen : 2 ≤ l.length) : Inv tells l 0 id (setup l) := by
  refine ⟨fun _ _ _ _ h => h, rfl, ⟨0, rfl, Nat.zero_le _, Nat.zero_le _, hlen⟩,
    Merging.start 1 l, ⟨Nat.one_pos, ?_, fun le _ => Merging.result_start Nat.one_pos hlen⟩, .inl ⟨rfl, ?_⟩⟩
  · rw [Merging.elems_start]
  · refine tracks_start (show 0 < l.length by omega) ?_ rfl rfl rfl rfl ?_ ?_
    · rw [List.map_id]
      exact cells_loaded _ l
    · rfl
    · rfl

theorem cells_comp (moved va : ℕ → ℕ) (p n : ℕ) : cells (moved ∘ va) p n = (cells va p n).map moved := by
  rw [cells, cells, List.map_map]

theorem Tracks.collect (h : Tracks f s t) (moved : ℕ → ℕ) : Tracks (moved ∘ f) (s.collect moved) t := by
  refine { h with out := ?_, left := ?_, right := ?_, rest := ?_ } <;>
    simp only [Sortby.collect, cells_comp, ← List.map_map]
  · rw [h.out]
  · rw [← h.left]
    rfl
  · rw [h.right]
  · rw [h.rest]

theorem Stands.collect (h : Stands f s t) (moved : ℕ → ℕ) : Stands (moved ∘ f) (s.collect moved) t := by
  cases h with
  | waiting hpend htracks hx hy => exact .waiting hpend (htracks.collect moved) hx hy
  | done hpend hended hanswer =>
      refine .done hpend hended ?_
      rw [← List.map_map, ← hanswer]
      exact cells_comp moved s.va 0 s.n

/-- What the loop of the step keeps. -/
theorem Holds.advance (ht : Holds tells l t) (h : Tracks now s t) :
    ∃ t', Holds tells l t' ∧ Stands now s.advance t' ∧ ∀ k, Paid k s → Paid k s.advance := by
  obtain ⟨t', hmoves, hstands, hpaid⟩ := advance_spec h
  exact ⟨t', ht.moves hmoves, hstands, hpaid⟩

theorem Reached.inv (hlen : 2 ≤ l.length) (h : Reached tells l k now s) : Inv tells l k now s := by
  induction h with
  | setup => exact setup_inv hlen
  | @enter k now s _ hpend ih =>
      obtain ⟨t, ht, htracks⟩ := ih.fresh hpend
      obtain ⟨t', ht', hstands, hkeep⟩ := ht.advance htracks
      exact ⟨ih.inj, (advance_n s).trans ih.n_eq, hkeep k ih.paid, t', ht', .inr hstands⟩
  | @reply k now s u v left _ hpend hu hv hux hvy htells ih =>
      obtain ⟨t, ht, htracks, hx, hy⟩ := ih.waiting hpend
      obtain ⟨x, xs, hl, hxat, -⟩ := htracks.left_cons hx
      obtain ⟨y, ys, hr, hyat, -⟩ := htracks.right_cons hy
      obtain rfl : x = u := ih.inj (ht.mem (by simp [hl])) hu (hxat.trans hux)
      obtain rfl : y = v := ih.inj (ht.mem (by simp [hr])) hv (hyat.trans hvy)
      obtain ⟨t', ht', hstands, hkeep⟩ :=
        (ht.answer hl hr htells).advance (take_tracks htracks hx hy left)
      rw [reply_eq]
      exact ⟨ih.inj, (advance_n _).trans ((take_n s left).trans ih.n_eq),
        hkeep _ (take_paid htracks hx hy ih.paid left), t', ht', .inr hstands⟩
  | @collect k now s moved _ hmoved ih =>
      obtain ⟨hinj, hn, hpaid, t, ht, hstate⟩ := ih
      refine ⟨hmoved.comp hinj fun u hu => ⟨u, hu, rfl⟩, hn, hpaid, t, ht, ?_⟩
      rcases hstate with ⟨hfresh, htracks⟩ | hstands
      · exact .inl ⟨hfresh, htracks.collect moved⟩
      · exact .inr (hstands.collect moved)

/-! ## What `sortby` answers -/

/-- Whatever the comparator tells, the answer has the elements of the list. -/
theorem Answers.perm {out : List ℕ} (h : Answers tells l now out) : out.Perm (l.map now) := by
  cases h with
  | short _ => rw [List.map_id]
  | merged hlen h hdone =>
      obtain ⟨t, ht, -, hanswer⟩ := (h.inv hlen).done hdone
      rw [hanswer]
      exact ht.perm.map now

/-- A comparator that obeys a total preorder sorts the list, wherever its elements have moved. -/
theorem Answers.sorted {le : ℕ → ℕ → Bool} {out : List ℕ} (hle : PreorderOn le l) (hobeys : Obeys tells l le)
    (h : Answers tells l now out) : ∃ sorted, StableSort le l sorted ∧ out = sorted.map now := by
  cases h with
  | short hlen => exact ⟨l, stableSort_short hlen, (List.map_id l).symm⟩
  | merged hlen h hdone =>
      obtain ⟨t, ht, hended, hanswer⟩ := (h.inv hlen).done hdone
      refine ⟨t.elems, ?_, hanswer⟩
      rw [← hended.result le, ht.result le hobeys]
      exact stableSort hle

/-- A run asks no more than so often. -/
theorem Reached.bounded (hlen : 2 ≤ l.length) (h : Reached tells l k now s) :
    k ≤ Nat.clog 2 l.length * l.length := by
  obtain ⟨-, hn, ⟨p, hw, hk, ho, hwn⟩, -⟩ := h.inv hlen
  rw [hw, hn] at hwn
  have hp : p + 1 ≤ Nat.clog 2 l.length := (Nat.lt_clog_iff_pow_lt Nat.one_lt_two).mpr hwn
  have hmul := Nat.mul_le_mul_right l.length hp
  rw [Nat.succ_mul] at hmul
  rw [hn] at hk ho
  omega

/-- A comparator that always replies is asked until the list is merged. -/
theorem Reached.answers (hlen : 2 ≤ l.length)
    (hreplies : ∀ u ∈ l, ∀ v ∈ l, ∃ left, tells u v left) (h : Reached tells l k now s) :
    ∃ out, Answers tells l now out := by
  induction hd : Nat.clog 2 l.length * l.length - k using Nat.strong_induction_on generalizing k s with
  | _ d ih =>
      subst hd
      -- from a compare on, one more reply
      have hgo : ∀ {s : Sortby}, Reached tells l k now s → s.pend = .waiting →
          ∃ out, Answers tells l now out := by
        intro s h hpend
        obtain ⟨t, ht, htracks, hx, hy⟩ := (h.inv hlen).waiting hpend
        obtain ⟨x, xs, hl, hxat, -⟩ := htracks.left_cons hx
        obtain ⟨y, ys, hr, hyat, -⟩ := htracks.right_cons hy
        have hxl := ht.mem (z := x) (by simp [hl])
        have hyl := ht.mem (z := y) (by simp [hr])
        obtain ⟨left, htells⟩ := hreplies x hxl y hyl
        have hnext := h.reply hpend hxl hyl hxat.symm hyat.symm htells
        have hbound := hnext.bounded hlen
        exact ih _ (by omega) hnext rfl
      cases hpend : s.pend with
      | fresh =>
          have henter := h.enter hpend
          obtain ⟨t, ht, htracks⟩ := (h.inv hlen).fresh hpend
          obtain ⟨t', -, hstands, -⟩ := ht.advance htracks
          cases hstands with
          | waiting hwait _ _ _ => exact hgo henter hwait
          | done hdone _ _ => exact ⟨_, .merged hlen henter hdone⟩
      | waiting => exact hgo h hpend
      | done => exact ⟨_, .merged hlen h hpend⟩

end Sortby

end LoveRuntime.Sorting
