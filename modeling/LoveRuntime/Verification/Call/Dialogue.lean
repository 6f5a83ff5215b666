import LoveRuntime.Library.Dialogue
import LoveRuntime.Model.Call
import Mathlib.Data.List.Forall2

/-! Threads in memory: the code at an address, what laying a thread keeps, what
one step does at each instruction of the lanes, and the partials that hold a
frame for a body. -/

namespace LoveRuntime.Call

open Dialogue

variable {E W : Type}

/-- The cells at `a` and after. -/
def CodeAt (h : Heap E) : Nat → List (Cell E) → Prop
  | _, [] => True
  | a, c :: cs => h.cell a = some c ∧ CodeAt h (a + 1) cs

@[simp] theorem codeAt_nil (h : Heap E) (a : Nat) : CodeAt h a [] := trivial

@[simp] theorem codeAt_cons (h : Heap E) (a : Nat) (c : Cell E) (cs : List (Cell E)) :
    CodeAt h a (c :: cs) ↔ h.cell a = some c ∧ CodeAt h (a + 1) cs := Iff.rfl

theorem codeAt_append (h : Heap E) (a : Nat) (cs ds : List (Cell E)) :
    CodeAt h a (cs ++ ds) ↔ CodeAt h a cs ∧ CodeAt h (a + cs.length) ds := by
  induction cs generalizing a with
  | nil => simp
  | cons c cs ih =>
      rw [List.cons_append, codeAt_cons, codeAt_cons, ih, List.length_cons, and_assoc]
      rw [show a + 1 + cs.length = a + (cs.length + 1) by omega]

theorem CodeAt.congr {h h' : Heap E} {a : Nat} {cs : List (Cell E)} (hc : CodeAt h a cs)
    (hh : ∀ b c, a ≤ b → h.cell b = some c → h'.cell b = some c) : CodeAt h' a cs := by
  induction cs generalizing a with
  | nil => trivial
  | cons c cs ih =>
      exact ⟨hh a c (Nat.le_refl a) hc.1, ih hc.2 fun b c hb => hh b c (by omega)⟩

theorem Heap.lt_hp {h : Heap E} {a : Nat} {c : Cell E} (hc : h.cell a = some c) : a < h.hp := by
  by_contra hge
  rw [h.clear a (by omega)] at hc
  cases hc

/-- `h'` is `h` with threads laid after it. -/
structure Ext (h h' : Heap E) : Prop where
  hp_le : h.hp ≤ h'.hp
  cell_eq : ∀ a, a < h.hp → h'.cell a = h.cell a

theorem Ext.refl (h : Heap E) : Ext h h := ⟨Nat.le_refl _, fun _ _ => rfl⟩

theorem Ext.trans {h h' h'' : Heap E} (a : Ext h h') (b : Ext h' h'') : Ext h h'' :=
  ⟨Nat.le_trans a.hp_le b.hp_le, fun i hi =>
    (b.cell_eq i (Nat.lt_of_lt_of_le hi a.hp_le)).trans (a.cell_eq i hi)⟩

theorem Ext.cell {h h' : Heap E} (e : Ext h h') {a : Nat} {c : Cell E}
    (hc : h.cell a = some c) : h'.cell a = some c := by
  rw [e.cell_eq a (Heap.lt_hp hc), hc]

theorem CodeAt.ext {h h' : Heap E} {a : Nat} {cs : List (Cell E)} (hc : CodeAt h a cs)
    (e : Ext h h') : CodeAt h' a cs :=
  hc.congr fun _ _ _ => e.cell

theorem ext_tagthread (h : Heap E) (cs : List (Cell E)) : Ext h (h.tagthread cs) where
  hp_le := by simp [Heap.tagthread, Heap.bump]
  cell_eq a ha := by simp [Heap.tagthread, Heap.bump, ha]

private theorem codeAt_bump_drop (h : Heap E) (cs : List (Cell E)) (n : Nat) :
    CodeAt (h.bump cs) (h.hp + n) (cs.drop n) := by
  induction hk : cs.length - n generalizing n with
  | zero =>
      rw [List.drop_eq_nil_of_le (by omega)]
      trivial
  | succ k ih =>
      have hn : n < cs.length := by omega
      rw [List.drop_eq_getElem_cons hn]
      refine ⟨?_, by simpa [Nat.add_assoc] using ih (n + 1) (by omega)⟩
      have hge : ¬ h.hp + n < h.hp := by omega
      simp [Heap.bump, hn, hge]

/-- The thread stands where it was laid. -/
theorem codeAt_tagthread (h : Heap E) (cs : List (Cell E)) :
    CodeAt (h.tagthread cs) h.hp cs := by
  have hall := codeAt_bump_drop h (cs ++ [.tag h.hp]) 0
  exact ((codeAt_append _ _ _ _).mp hall).1

theorem count_of_cell {h : Heap E} {a n : Nat} (hc : h.cell a = some (.count n)) :
    h.count a = some n := by
  simp [Heap.count, hc]

theorem word_of_cell {h : Heap E} {a : Nat} {w : Word} (hc : h.cell a = some (.x w)) :
    h.word a = some w := by
  simp [Heap.word, hc]

theorem link_of_cell {h : Heap E} {a k : Nat} (hc : h.cell a = some (.x (.ptr k))) :
    h.link a = some k := by
  simp [Heap.link, hc]

/-- The state in which `v` has been applied to `a` with `r` to return to; an
unsealed hook leaves a numeral with none. -/
def entry (M : Machine E W) (h : Heap E) (w : W) (v a : Word) (r : Word) (sp : List Word) :
    Option (State E W) :=
  match v with
  | .ptr k => some ⟨k, a :: r :: sp, h, w⟩
  | .num n =>
      match M.hook w with
      | .ptr hk => some ⟨M.numapDrive, .num n :: .ptr hk :: a :: r :: sp, h, w⟩
      | .num _ => none

section Steps

variable (M : Machine E W) {h : Heap E} {i : Nat} {sp : List Word} {w : W}

theorem step_ap (hc : h.cell i = some (.ap .ap)) (v a : Word) :
    M.step ⟨i, a :: v :: sp, h, w⟩ = entry M h w v a (.ptr (i + 1)) sp := by
  cases v with
  | ptr k => simp [Machine.step, hc, lvmAp, entry]
  | num n =>
      cases hk : M.hook w <;> simp [Machine.step, hc, lvmAp, lvmNumap, hotHook, entry, hk]

theorem step_quote {x : Word} (hc : CodeAt h i [.ap .quote, .x x]) :
    M.step ⟨i, sp, h, w⟩ = some ⟨i + 2, x :: sp, h, w⟩ := by
  simp [Machine.step, hc.1, lvmQuote, word_of_cell hc.2.1]

theorem step_quoteap {x : Word} (hc : CodeAt h i [.ap .quoteap, .x x]) (v : Word) :
    M.step ⟨i, v :: sp, h, w⟩ = entry M h w v x (.ptr (i + 2)) sp := by
  cases v with
  | ptr k => simp [Machine.step, hc.1, lvmQuoteap, word_of_cell hc.2.1, entry]
  | num n =>
      cases hk : M.hook w <;>
        simp [Machine.step, hc.1, lvmQuoteap, word_of_cell hc.2.1, lvmNumap, hotHook, entry, hk]

/-- A tail call enters with the frame's own return, the frame dropped. -/
theorem step_tap {frame : List Word} (hc : CodeAt h i [.ap .tap, .count frame.length])
    (v a r : Word) :
    M.step ⟨i, a :: v :: (frame ++ r :: sp), h, w⟩ = entry M h w v a r sp := by
  have hdrop : (frame ++ r :: sp).drop frame.length = r :: sp := by simp
  have hset : ((v :: (frame ++ r :: sp)).drop frame.length).set 0 a = a :: r :: sp := by
    have hlast : ∃ b, (v :: (frame ++ r :: sp)).drop frame.length = b :: r :: sp := by
      cases hf : frame.reverse with
      | nil =>
          have : frame = [] := by simpa using hf
          subst this
          exact ⟨v, rfl⟩
      | cons b fs =>
          have : frame = fs.reverse ++ [b] := by
            rw [← List.reverse_reverse frame, hf, List.reverse_cons]
          subst this
          exact ⟨b, by simp⟩
    obtain ⟨b, hb⟩ := hlast
    rw [hb]
    rfl
  cases v with
  | ptr k => simp [Machine.step, hc.1, lvmTap, count_of_cell hc.2.1, entry, hset]
  | num n =>
      cases hk : M.hook w <;>
        simp [Machine.step, hc.1, lvmTap, lvmNumtap, count_of_cell hc.2.1, hotHook, entry, hk,
          hdrop]

theorem step_jump {k : Nat} (hc : CodeAt h i [.ap .jump, .x (.ptr k)]) :
    M.step ⟨i, sp, h, w⟩ = some ⟨k, sp, h, w⟩ := by
  simp [Machine.step, hc.1, lvmJump, link_of_cell hc.2.1]

theorem step_unc {x : Word} {k : Nat} (hc : CodeAt h i [.ap .unc, .x x, .x (.ptr k)]) :
    M.step ⟨i, sp, h, w⟩ = some ⟨k, x :: sp, h, w⟩ := by
  simp [Machine.step, hc.1, lvmUnc, word_of_cell hc.2.1, link_of_cell hc.2.2.1]

private theorem words_of_codeAt {ws : List Word} {j : Nat} (hc : CodeAt h j (ws.map .x)) :
    (List.range ws.length).mapM (fun i => h.word (j + i)) = some ws := by
  induction ws generalizing j with
  | nil => simp
  | cons x ws ih =>
      have ih' := ih hc.2
      rw [List.length_cons, List.range_succ_eq_map, List.mapM_cons, List.mapM_map]
      have hfun : ((fun i => h.word (j + i)) ∘ Nat.succ) = fun i => h.word (j + 1 + i) := by
        funext i
        simp only [Function.comp, Nat.succ_eq_add_one]
        congr 1
        omega
      rw [hfun, ih']
      simp [word_of_cell hc.1]

theorem step_uncn {ws : List Word} {k : Nat}
    (hc : CodeAt h i ([.ap .uncn, .count ws.length] ++ ws.map .x ++ [.x (.ptr k)])) :
    M.step ⟨i, sp, h, w⟩ = some ⟨k, ws ++ sp, h, w⟩ := by
  rw [codeAt_append, codeAt_append] at hc
  obtain ⟨⟨⟨hop, hn, -⟩, hws⟩, hk, -⟩ := hc
  simp only [List.length_cons, List.length_nil, List.length_append, List.length_map] at hws hk
  have hlink : h.link (i + 2 + ws.length) = some k := by
    refine link_of_cell ?_
    rw [← hk]
    congr 1
    omega
  simp [Machine.step, hop, lvmUncn, count_of_cell hn, words_of_codeAt hws, hlink]

/-- The head a partial of `r` more arguments carries. -/
def curHead (r : Nat) : List (Cell E) :=
  if 1 < r then [.ap .cur, .count r] else []

theorem step_cur {r : Nat} (hr : 0 < r) (hc : CodeAt h i [.ap .cur, .count (r + 1)])
    (a : Word) (k : Nat) :
    M.step ⟨i, a :: .ptr k :: sp, h, w⟩ =
      some ⟨k, .ptr h.hp :: sp,
        h.tagthread (curHead r ++ [.ap .unc, .x a, .x (.ptr (i + 2))]), w⟩ := by
  have hif : (2 < r + 1) = (1 < r) := propext (by omega)
  simp [Machine.step, hc.1, lvmCur, count_of_cell hc.2.1, curHead, hif]

end Steps

/-- A row of `unc` cells over the code `k`: entering it pushes the frame `xs`
and goes on at `k`. The outer cell holds the newest arguments. -/
inductive Uncs (h : Heap E) (k : Nat) : Nat → List Word → Prop
  | base : Uncs h k k []
  | unc {u u' : Nat} {x : Word} {xs : List Word}
      (hc : CodeAt h u [.ap .unc, .x x, .x (.ptr u')]) (hu : Uncs h k u' xs) :
      Uncs h k u (xs ++ [x])
  | uncn {u u' : Nat} {ws xs : List Word}
      (hc : CodeAt h u ([.ap .uncn, .count ws.length] ++ ws.map .x ++ [.x (.ptr u')]))
      (hu : Uncs h k u' xs) : Uncs h k u (xs ++ ws)

/-- A value that waits for `r` more arguments and then enters `k` with them
under the frame `xs` it holds. -/
def Holds (h : Heap E) (v : Word) (r : Nat) (xs : List Word) (k : Nat) : Prop :=
  ∃ u, v = .ptr u ∧ 0 < r ∧ CodeAt h u (curHead r) ∧
    Uncs h k (u + (curHead (E := E) r).length) xs

theorem Uncs.ext {h h' : Heap E} {k u : Nat} {xs : List Word} (hu : Uncs h k u xs)
    (e : Ext h h') : Uncs h' k u xs := by
  induction hu with
  | base => exact .base
  | unc hc _ ih => exact .unc (hc.ext e) ih
  | uncn hc _ ih => exact .uncn (hc.ext e) ih

theorem Holds.ext {h h' : Heap E} {v : Word} {r k : Nat} {xs : List Word}
    (hv : Holds h v r xs k) (e : Ext h h') : Holds h' v r xs k := by
  obtain ⟨u, rfl, hr, hc, hu⟩ := hv
  exact ⟨u, rfl, hr, hc.ext e, hu.ext e⟩

theorem Uncs.run (M : Machine E W) {h : Heap E} {k u : Nat} {xs : List Word} (hu : Uncs h k u xs)
    (sp : List Word) (w : W) : Steps M.step ⟨u, sp, h, w⟩ ⟨k, xs ++ sp, h, w⟩ := by
  induction hu generalizing sp with
  | base => exact .refl _
  | unc hc _ ih =>
      refine .head (step_unc M hc) ?_
      rw [List.append_assoc]
      exact ih _
  | uncn hc _ ih =>
      refine .head (step_uncn M hc) ?_
      rw [List.append_assoc]
      exact ih _

/-- A `cur` of two or more holds an empty frame for its body. -/
theorem holds_of_curWidth {h : Heap E} {k m : Nat} (hm : 1 < m)
    (hw : curWidth h (.ptr k) = some m) : Holds h (.ptr k) m [] (k + 2) := by
  have hc : CodeAt h k [.ap .cur, .count m] := by
    unfold curWidth at hw
    dsimp only at hw
    split at hw
    next heq =>
      unfold Heap.count at hw
      split at hw
      next n heq' =>
        cases hw
        exact ⟨heq, heq', trivial⟩
      next => cases hw
    next => cases hw
  refine ⟨k, rfl, by omega, ?_, ?_⟩
  · simpa only [curHead, if_pos hm] using hc
  · rw [curHead, if_pos hm]
    exact .base

/-- One argument more, short of the last: the answer holds it too. -/
theorem Holds.apply (M : Machine E W) {h : Heap E} {v : Word} {r k : Nat} {xs : List Word}
    (hr : 0 < r) (hv : Holds h v (r + 1) xs k) (a : Word) (ret : Nat) (sp : List Word) (w : W) :
    ∃ s v' h', entry M h w v a (.ptr ret) sp = some s ∧
      M.step s = some ⟨ret, v' :: sp, h', w⟩ ∧ Ext h h' ∧ Holds h' v' r (xs ++ [a]) k := by
  obtain ⟨u, rfl, -, hc, hu⟩ := hv
  have hcur : curHead (E := E) (r + 1) = [.ap .cur, .count (r + 1)] := if_pos (by omega)
  rw [hcur] at hc hu
  have he := ext_tagthread h (curHead r ++ [.ap .unc, .x a, .x (.ptr (u + 2))])
  have hat := codeAt_tagthread h (curHead r ++ [.ap .unc, .x a, .x (.ptr (u + 2))])
  rw [codeAt_append] at hat
  exact ⟨_, _, _, rfl, step_cur M hr hc a ret, he,
    ⟨h.hp, rfl, hr, hat.1, .unc hat.2 (hu.ext he)⟩⟩

/-- The last argument: the body is entered over the whole frame. -/
theorem Holds.enter (M : Machine E W) {h : Heap E} {v : Word} {k : Nat} {xs : List Word}
    (hv : Holds h v 1 xs k) (a r : Word) (sp : List Word) (w : W) :
    ∃ s, entry M h w v a r sp = some s ∧
      Steps M.step s ⟨k, (xs ++ [a]) ++ r :: sp, h, w⟩ := by
  obtain ⟨u, rfl, -, -, hu⟩ := hv
  refine ⟨_, rfl, ?_⟩
  rw [List.append_assoc]
  exact hu.run M (a :: r :: sp) w

end LoveRuntime.Call

/-! What it is for two calls to mean the same. The callees are outside parties:
both calls enter the same callee over the same frame, and whatever it answers
they go on alike, until both stand at the same resume point with the same value
over the same stack. -/

namespace LoveRuntime.Call

open Dialogue

variable {E W : Type} {M : Machine E W}

/-- When a word of one memory stands for the same value as a word of another.
Words that were there before the call are themselves, numerals are themselves,
and threads no word names do not matter. Equality over equal worlds is the
least such notion; a renaming of the objects made since is another. -/
structure Likeness (M : Machine E W) where
  rel : Word → Word → Prop
  mem : Heap E → W → Heap E → W → Prop
  refl : ∀ v, rel v v
  num : ∀ {v v'}, rel v v' → ∀ n, v = .num n ↔ v' = .num n
  hook : ∀ {h w h' w'}, mem h w h' w' → rel (M.hook w) (M.hook w')
  left : ∀ {h w h' w' h''}, mem h w h' w' → Ext h h'' → mem h'' w h' w'
  right : ∀ {h w h' w' h''}, mem h w h' w' → Ext h' h'' → mem h w h'' w'

/-- The threads laid since `h₀` are as they were. -/
def Kept (h₀ h h₁ : Heap E) : Prop :=
  ∀ a c, h₀.hp ≤ a → h.cell a = some c → h₁.cell a = some c

theorem Kept.ofExt {h₀ h h₁ : Heap E} (e : Ext h h₁) : Kept h₀ h h₁ :=
  fun _ _ _ => e.cell

theorem CodeAt.kept {h₀ h h₁ : Heap E} {a : Nat} {cs : List (Cell E)} (hc : CodeAt h a cs)
    (ha : h₀.hp ≤ a) (hk : Kept h₀ h h₁) : CodeAt h₁ a cs :=
  hc.congr fun b c hb => hk b c (by omega)

/-- Both enter the same callee over the same frame. It answers like values, each
to its own return point, in like memories that keep the calls' own threads. -/
inductive Asks (L : Likeness M) (h₀ : Heap E) :
    State E W → State E W → (State E W → State E W → Prop) → Prop
  | enter {e e' r r' : Nat} {frame frame' sp sp' : List Word} {h h' : Heap E} {w w' : W}
      (hent : L.rel (.ptr e) (.ptr e')) (hframe : List.Forall₂ L.rel frame frame')
      (hmem : L.mem h w h' w') :
      Asks L h₀ ⟨e, frame ++ .ptr r :: sp, h, w⟩ ⟨e', frame' ++ .ptr r' :: sp', h', w'⟩
        (fun s t => ∃ v v' h₁ h₁' w₁ w₁', L.rel v v' ∧ L.mem h₁ w₁ h₁' w₁' ∧
          Kept h₀ h h₁ ∧ Kept h₀ h' h₁' ∧
          s = ⟨r, v :: sp, h₁, w₁⟩ ∧ t = ⟨r', v' :: sp', h₁', w₁'⟩)

/-- Both resume at `next` over `rest`, with like values or with two partials
that hold the same frame for the same body; or both trap on an unsealed hook. -/
inductive Answers (L : Likeness M) (next : Nat) (rest : List Word) :
    State E W → State E W → Prop
  | like {v v' : Word} {h h' : Heap E} {w w' : W} (hv : L.rel v v') (hmem : L.mem h w h' w') :
      Answers L next rest ⟨next, v :: rest, h, w⟩ ⟨next, v' :: rest, h', w'⟩
  | held {v v' : Word} {h h' : Heap E} {w w' : W} {r k : Nat} {xs : List Word}
      (hv : Holds h v r xs k) (hv' : Holds h' v' r xs k) (hmem : L.mem h w h' w') :
      Answers L next rest ⟨next, v :: rest, h, w⟩ ⟨next, v' :: rest, h', w'⟩
  | trap {s t : State E W} (hs : M.step s = none) (ht : M.step t = none)
      (hs' : hotHook M s = none) (ht' : hotHook M t = none) : Answers L next rest s t

/-- Two calls begun in `h₀` that answer the same to `next` over `rest`. -/
def MeansSame (L : Likeness M) (h₀ : Heap E) (next : Nat) (rest : List Word) :
    State E W → State E W → Prop :=
  Alike M.step M.step (Answers L next rest) (Asks L h₀)

variable {L : Likeness M} {h₀ : Heap E} {next : Nat} {rest : List Word}

/-- Applying like values to one argument asks the same, so what follows the
answer decides. -/
theorem meansSame_of_entry {s t : State E W} {h h' : Heap E} {w w' : W} {v v' a : Word}
    {r r' : Nat} {sp sp' : List Word} (hv : L.rel v v') (hm : L.mem h w h' w')
    (hs : M.step s = entry M h w v a (.ptr r) sp) (hsw : s.world = w)
    (ht : M.step t = entry M h' w' v' a (.ptr r') sp') (htw : t.world = w')
    (k : ∀ u u' h₁ h₁' w₁ w₁', L.rel u u' → L.mem h₁ w₁ h₁' w₁' → Kept h₀ h h₁ →
      Kept h₀ h' h₁' →
      MeansSame L h₀ next rest ⟨r, u :: sp, h₁, w₁⟩ ⟨r', u' :: sp', h₁', w₁'⟩) :
    MeansSame L h₀ next rest s t := by
  have reply : ∀ s' t', (∃ u u' h₁ h₁' w₁ w₁', L.rel u u' ∧ L.mem h₁ w₁ h₁' w₁' ∧
      Kept h₀ h h₁ ∧ Kept h₀ h' h₁' ∧
      s' = ⟨r, u :: sp, h₁, w₁⟩ ∧ t' = ⟨r', u' :: sp', h₁', w₁'⟩) →
      MeansSame L h₀ next rest s' t' := by
    rintro s' t' ⟨u, u', h₁, h₁', w₁, w₁', hu, hm₁, hk, hk', rfl, rfl⟩
    exact k u u' h₁ h₁' w₁ w₁' hu hm₁ hk hk'
  cases v with
  | num n =>
      have hv' : v' = .num n := (L.num hv n).mp rfl
      subst hv'
      have hhook := L.hook hm
      cases hh : M.hook w with
      | num i =>
          have hh' : M.hook w' = .num i := (L.num hhook i).mp hh
          refine .done (.trap ?_ ?_ ?_ ?_)
          · simp [hs, entry, hh]
          · simp [ht, entry, hh']
          · simp [hotHook, hsw, hh]
          · simp [hotHook, htw, hh']
      | ptr hk =>
          cases hh' : M.hook w' with
          | num i =>
              have hi : M.hook w = .num i := (L.num hhook i).mpr hh'
              rw [hh] at hi
              cases hi
          | ptr hk' =>
              rw [hh, hh'] at hhook
              simp only [entry, hh, hh'] at hs ht
              refine .left hs (.right ht (.ask ?_ reply))
              exact .enter (L.refl _)
                (.cons (L.refl _) (.cons hhook (.cons (L.refl a) .nil))) hm
  | ptr e =>
      cases v' with
      | num n =>
          have he : Word.ptr e = .num n := (L.num hv n).mpr rfl
          cases he
      | ptr e' =>
          refine .left hs (.right ht (.ask ?_ reply))
          exact .enter hv (.cons (L.refl a) .nil) hm

/-- Code that, given the callee on top of `sp`, applies it to `last` and sends
the answer on to `next` over `rest`. -/
def LastCall (M : Machine E W) (h₀ : Heap E) (next : Nat) (rest sp : List Word) (last : Word)
    (cs : List (Cell E)) : Prop :=
  ∀ (h : Heap E) (i : Nat) (v : Word) (w : W), h₀.hp ≤ i → CodeAt h i cs →
    ∃ s r, Steps M.step ⟨i, v :: sp, h, w⟩ s ∧ s.world = w ∧
      M.step s = entry M h w v last (.ptr r) rest ∧
      ∀ u h₁ w₁, Kept h₀ h h₁ → Steps M.step ⟨r, u :: rest, h₁, w₁⟩ ⟨next, u :: rest, h₁, w₁⟩

theorem lastCall_quote_ap (last : Word) :
    LastCall M h₀ next rest rest last [.ap .quote, .x last, .ap .ap, .ap .jump, .x (.ptr next)] := by
  intro h i v w hi hc
  obtain ⟨hq, hx, ha, hj, hn, -⟩ := hc
  refine ⟨_, i + 3, .single (step_quote M ⟨hq, hx, trivial⟩), rfl, step_ap M ha v last, ?_⟩
  intro u h₁ w₁ hk
  exact .single (step_jump M (CodeAt.kept ⟨hj, hn, trivial⟩ (by omega) hk))

theorem lastCall_quoteap (last : Word) :
    LastCall M h₀ next rest rest last [.ap .quoteap, .x last, .ap .jump, .x (.ptr next)] := by
  intro h i v w hi hc
  obtain ⟨hq, hx, hj, hn, -⟩ := hc
  refine ⟨_, i + 2, .refl _, rfl, step_quoteap M ⟨hq, hx, trivial⟩ v, ?_⟩
  intro u h₁ w₁ hk
  exact .single (step_jump M (CodeAt.kept ⟨hj, hn, trivial⟩ (by omega) hk))

theorem lastCall_tap (frame : List Word) (last : Word) :
    LastCall M h₀ next rest (frame ++ .ptr next :: rest) last
      [.ap .quote, .x last, .ap .tap, .count frame.length] := by
  intro h i v w hi hc
  obtain ⟨hq, hx, ht, hn, -⟩ := hc
  exact ⟨_, next, .single (step_quote M ⟨hq, hx, trivial⟩), rfl,
    step_tap M ⟨ht, hn, trivial⟩ v last _, fun _ _ _ _ => .refl _⟩

/-- Code that applies the callee on top to `a` and has the answer come back
right after it. -/
def ArgCall (M : Machine E W) (a : Word) (cs : List (Cell E)) : Prop :=
  ∀ (h : Heap E) (i : Nat) (v : Word) (sp : List Word) (w : W), CodeAt h i cs →
    ∃ s, Steps M.step ⟨i, v :: sp, h, w⟩ s ∧ s.world = w ∧
      M.step s = entry M h w v a (.ptr (i + cs.length)) sp

theorem argCall_quote_ap (a : Word) : ArgCall M a [.ap .quote, .x a, .ap .ap] := by
  intro h i v sp w hc
  obtain ⟨hq, hx, ha, -⟩ := hc
  exact ⟨_, .single (step_quote M ⟨hq, hx, trivial⟩), rfl, step_ap M ha v a⟩

theorem argCall_quoteap (a : Word) : ArgCall M a [.ap .quoteap, .x a] := by
  intro h i v sp w hc
  exact ⟨_, .refl _, rfl, step_quoteap M hc v⟩

/-- The chain a miss lays, its applications fused. -/
def fused (args : List Word) : List (Cell E) :=
  args.flatMap fun a => [.ap .quoteap, .x a]

variable {spL spR : List Word} {last : Word} {endL endR : List (Cell E)}

theorem meansSame_of_lastCalls (hL : LastCall M h₀ next rest spL last endL)
    (hR : LastCall M h₀ next rest spR last endR) {h h' : Heap E} {w w' : W} {v v' : Word}
    {i j : Nat} (hi : h₀.hp ≤ i) (hj : h₀.hp ≤ j) (hc : CodeAt h i endL) (hc' : CodeAt h' j endR)
    (hv : L.rel v v') (hm : L.mem h w h' w') :
    MeansSame L h₀ next rest ⟨i, v :: spL, h, w⟩ ⟨j, v' :: spR, h', w'⟩ := by
  obtain ⟨s, r, hs, hsw, hse, hsr⟩ := hL h i v w hi hc
  obtain ⟨t, r', ht, htw, hte, htr⟩ := hR h' j v' w' hj hc'
  refine .runLeft hs (.runRight ht ?_)
  refine meansSame_of_entry hv hm hse hsw hte htw ?_
  intro u u' h₁ h₁' w₁ w₁' hu hm₁ hk hk'
  exact .runLeft (hsr u h₁ w₁ hk) (.runRight (htr u' h₁' w₁' hk') (.done (.like hu hm₁)))

/-- Two chains over the same arguments ask the same, argument by argument,
however each of them lays an application. -/
theorem meansSame_of_chains {cL cR : Word → List (Cell E)} (hcL : ∀ a, ArgCall M a (cL a))
    (hcR : ∀ a, ArgCall M a (cR a)) (hL : LastCall M h₀ next rest spL last endL)
    (hR : LastCall M h₀ next rest spR last endR) (front : List Word) {h h' : Heap E} {w w' : W}
    {v v' : Word} {i j : Nat} (hi : h₀.hp ≤ i) (hj : h₀.hp ≤ j)
    (hc : CodeAt h i (front.flatMap cL ++ endL)) (hc' : CodeAt h' j (front.flatMap cR ++ endR))
    (hv : L.rel v v') (hm : L.mem h w h' w') :
    MeansSame L h₀ next rest ⟨i, v :: spL, h, w⟩ ⟨j, v' :: spR, h', w'⟩ := by
  induction front generalizing h h' w w' v v' i j with
  | nil => exact meansSame_of_lastCalls hL hR hi hj hc hc' hv hm
  | cons a front ih =>
      rw [List.flatMap_cons, List.append_assoc, codeAt_append] at hc hc'
      obtain ⟨s, hs, hsw, hse⟩ := hcL a h i v spL w hc.1
      obtain ⟨t, ht, htw, hte⟩ := hcR a h' j v' spR w' hc'.1
      refine .runLeft hs (.runRight ht ?_)
      refine meansSame_of_entry hv hm hse hsw hte htw ?_
      intro u u' h₁ h₁' w₁ w₁' hu hm₁ hk hk'
      exact ih (by omega) (by omega) (hc.2.kept (by omega) hk) (hc'.2.kept (by omega) hk') hu hm₁

/-- The chain through `ap` over a value that holds a frame: the arguments short
of the last it waits for join the frame. -/
theorem Holds.run_apl2r {h : Heap E} {v : Word} {r k : Nat} {xs : List Word} {i : Nat}
    {cs : List (Cell E)} (front : List Word) (sp : List Word) (w : W)
    (hv : Holds h v (r + front.length) xs k) (hr : 0 < r) (hc : CodeAt h i (apl2r front ++ cs)) :
    ∃ v' h' j, Steps M.step ⟨i, v :: sp, h, w⟩ ⟨j, v' :: sp, h', w⟩ ∧ Ext h h' ∧ i ≤ j ∧
      CodeAt h' j cs ∧ Holds h' v' r (xs ++ front) k := by
  induction front generalizing h v xs i with
  | nil => exact ⟨v, h, i, .refl _, Ext.refl h, Nat.le_refl i, hc, by simpa using hv⟩
  | cons a front ih =>
      obtain ⟨hq, hx, ha, hc⟩ := hc
      obtain ⟨s, v₁, h₁, hent, hstep, he, hv₁⟩ :=
        Holds.apply M (by omega) (r := r + front.length) (by simpa [Nat.add_assoc] using hv) a
          (i + 2 + 1) sp w
      obtain ⟨v', h', j, hrun, he', hij, hcs, hv'⟩ := ih hv₁ (hc.ext he)
      refine ⟨v', h', j, ?_, he.trans he', by omega, hcs, by simpa using hv'⟩
      refine .head (step_quote M ⟨hq, hx, trivial⟩) (.head ?_ (.head hstep hrun))
      rw [step_ap M ha, hent]

/-- The body a value holds its frame for is entered alike from any two values
that hold the same. -/
private theorem meansSame_of_bodies {h h' : Heap E} {w w' : W} {s t s' t' : State E W}
    {k r r' : Nat} {frame sp sp' : List Word} (hm : L.mem h w h' w')
    (hs : M.step s = some s') (ht : M.step t = some t')
    (hbody : Steps M.step s' ⟨k, frame ++ .ptr r :: sp, h, w⟩)
    (hbody' : Steps M.step t' ⟨k, frame ++ .ptr r' :: sp', h', w'⟩)
    (hk : ∀ u u' h₁ h₁' w₁ w₁', L.rel u u' → L.mem h₁ w₁ h₁' w₁' → Kept h₀ h h₁ →
      Kept h₀ h' h₁' →
      MeansSame L h₀ next rest ⟨r, u :: sp, h₁, w₁⟩ ⟨r', u' :: sp', h₁', w₁'⟩) :
    MeansSame L h₀ next rest s t := by
  refine .runLeft (.head hs hbody) (.runRight (.head ht hbody') ?_)
  refine .ask (.enter (L.refl _) (List.forall₂_same.mpr fun v _ => L.refl v) hm) ?_
  rintro s' t' ⟨u, u', h₁, h₁', w₁, w₁', hu, hm₁, hk₁, hk₁', rfl, rfl⟩
  exact hk u u' h₁ h₁' w₁ w₁' hu hm₁ hk₁ hk₁'

/-- Partials that hold the same frame for the same body are one callee: any
arguments, short of what they wait for, exact or beyond, mean the same. -/
theorem Holds.meansSame (hL : LastCall M h₀ next rest spL last endL)
    (hR : LastCall M h₀ next rest spR last endR) (front : List Word) {h h' : Heap E} {w w' : W}
    {v v' : Word} {r k : Nat} {xs : List Word} {i j : Nat} (hi : h₀.hp ≤ i) (hj : h₀.hp ≤ j)
    (hc : CodeAt h i (apl2r front ++ endL)) (hc' : CodeAt h' j (apl2r front ++ endR))
    (hv : Holds h v r xs k) (hv' : Holds h' v' r xs k) (hm : L.mem h w h' w') :
    MeansSame L h₀ next rest ⟨i, v :: spL, h, w⟩ ⟨j, v' :: spR, h', w'⟩ := by
  induction front generalizing h h' v v' r xs i j with
  | nil =>
      obtain ⟨s, b, hs, -, hse, hsr⟩ := hL h i v w hi hc
      obtain ⟨t, b', ht, -, hte, htr⟩ := hR h' j v' w' hj hc'
      refine .runLeft hs (.runRight ht ?_)
      obtain ⟨r, rfl⟩ : ∃ q, r = q + 1 := ⟨r - 1, by obtain ⟨-, -, hr, -⟩ := hv; omega⟩
      cases r with
      | zero =>
          obtain ⟨s', hent, hbody⟩ := hv.enter M last (.ptr b) rest w
          obtain ⟨t', hent', hbody'⟩ := hv'.enter M last (.ptr b') rest w'
          refine meansSame_of_bodies hm (hse.trans hent) (hte.trans hent') hbody hbody' ?_
          intro u u' h₁ h₁' w₁ w₁' hu hm₁ hk hk'
          exact .runLeft (hsr u h₁ w₁ hk) (.runRight (htr u' h₁' w₁' hk') (.done (.like hu hm₁)))
      | succ r =>
          obtain ⟨s', v₁, h₁, hent, hstep, he, hv₁⟩ := hv.apply M (by omega) last b rest w
          obtain ⟨t', v₁', h₁', hent', hstep', he', hv₁'⟩ := hv'.apply M (by omega) last b' rest w'
          have hback := hsr v₁ h₁ w (Kept.ofExt he)
          have hback' := htr v₁' h₁' w' (Kept.ofExt he')
          refine .runLeft (.head (hse.trans hent) (.head hstep hback)) ?_
          refine .runRight (.head (hte.trans hent') (.head hstep' hback')) ?_
          exact .done (.held hv₁ hv₁' (L.right (L.left hm he) he'))
  | cons a front ih =>
      obtain ⟨hq, hx, ha, hc⟩ := hc
      obtain ⟨hq', hx', ha', hc'⟩ := hc'
      refine .left (step_quote M ⟨hq, hx, trivial⟩) ?_
      refine .right (step_quote M ⟨hq', hx', trivial⟩) ?_
      obtain ⟨r, rfl⟩ : ∃ q, r = q + 1 := ⟨r - 1, by obtain ⟨-, -, hr, -⟩ := hv; omega⟩
      cases r with
      | zero =>
          obtain ⟨s', hent, hbody⟩ := hv.enter M a (.ptr (i + 2 + 1)) spL w
          obtain ⟨t', hent', hbody'⟩ := hv'.enter M a (.ptr (j + 2 + 1)) spR w'
          refine meansSame_of_bodies hm ((step_ap M ha v a).trans hent)
            ((step_ap M ha' v' a).trans hent') hbody hbody' ?_
          intro u u' h₁ h₁' w₁ w₁' hu hm₁ hk hk'
          exact meansSame_of_chains argCall_quote_ap argCall_quote_ap hL hR front (by omega)
            (by omega) (hc.kept (by omega) hk) (hc'.kept (by omega) hk') hu hm₁
      | succ r =>
          obtain ⟨s', v₁, h₁, hent, hstep, he, hv₁⟩ :=
            hv.apply M (by omega) a (i + 2 + 1) spL w
          obtain ⟨t', v₁', h₁', hent', hstep', he', hv₁'⟩ :=
            hv'.apply M (by omega) a (j + 2 + 1) spR w'
          refine .runLeft (.head ((step_ap M ha v a).trans hent) (.single hstep)) ?_
          refine .runRight (.head ((step_ap M ha' v' a).trans hent') (.single hstep')) ?_
          exact ih (by omega) (by omega) (hc.ext he) (hc'.ext he') hv₁ hv₁'
            (L.right (L.left hm he) he')

end LoveRuntime.Call
