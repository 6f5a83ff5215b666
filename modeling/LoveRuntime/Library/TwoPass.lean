import LoveRuntime.Library.Cells

/-! # Programs of two passes

A program that appends items to an array where it is given one, and counts them all the same where it
is not: run first to count and again to lay. What it does next may depend on what it reads but not on
the array, so both passes come to one answer and the second fills exactly what the first counted. -/

namespace TwoPass

variable {ε β α γ δ : Type}

/-- The array, where there is one, and how many items it has been given. -/
structure Sink (β : Type) where
  d : Option (Cells β)
  k : ℕ

/-- A program that may stop with an error. -/
abbrev Lay (ε β α : Type) := StateT (Sink β) (Except ε) α

def Sink.put (s : Sink β) (b : β) : Sink β := ⟨s.d.map fun m => m.set s.k b, s.k + 1⟩

/-- One item appended. -/
def put (b : β) : Lay ε β Unit := modify fun s => s.put b

def putIf (c : Prop) [Decidable c] (b : β) : Lay ε β Unit := if c then put b else pure ()

/-- Steps taken until one has an answer; each leaves less. -/
def loop (step : δ → Lay ε β (δ ⊕ α)) (left : δ → ℕ)
    (h : ∀ x s t y, step x s = .ok (.inl y, t) → left y < left x) (x : δ) (s : Sink β) :
    Except ε (α × Sink β) :=
  match _hx : step x s with
  | .error e => .error e
  | .ok (.inr a, t) => .ok (a, t)
  | .ok (.inl y, t) => loop step left h y t
  termination_by left x
  decreasing_by exact h x s t y _hx

section Loop

variable {step : δ → Lay ε β (δ ⊕ α)} {left : δ → ℕ}
  {h : ∀ x s t y, step x s = .ok (.inl y, t) → left y < left x} {x : δ} {s t : Sink β}

theorem loop_error {e : ε} (hx : step x s = .error e) : loop step left h x s = .error e := by
  rw [loop]
  split <;> simp_all

theorem loop_answer {a : α} (hx : step x s = .ok (.inr a, t)) : loop step left h x s = .ok (a, t) := by
  rw [loop]
  split <;> simp_all

theorem loop_next {y : δ} (hx : step x s = .ok (.inl y, t)) :
    loop step left h x s = loop step left h y t := by
  rw [loop]
  split <;> simp_all

end Loop

/-! ## What an answer meets -/

def Post (f : Lay ε β α) (P : α → Prop) : Prop := ∀ s t a, f s = .ok (a, t) → P a

theorem bind_apply (f : Lay ε β α) (g : α → Lay ε β γ) (s : Sink β) :
    (f >>= g) s = match f s with
      | .error e => .error e
      | .ok (a, t) => g a t := by
  change (f s >>= fun r => g r.1 r.2) = _
  cases f s with
  | error e => rfl
  | ok r => rfl

namespace Post

variable {f : Lay ε β α} {g : α → Lay ε β γ} {P Q : α → Prop} {R : γ → Prop}

theorem pure {a : α} (h : P a) : Post (Pure.pure a : Lay ε β α) P := by
  intro s t b hb
  cases hb
  exact h

theorem throw {e : ε} : Post (liftM (Except.error e : Except ε α) : Lay ε β α) P := by
  intro s t b hb
  cases hb

theorem lift {x : Except ε α} (h : ∀ a, x = .ok a → P a) : Post (liftM x : Lay ε β α) P := by
  intro s t b hb
  cases x with
  | error e => cases hb
  | ok a =>
      cases hb
      exact h _ rfl

theorem bind (hf : Post f P) (hg : ∀ a, P a → Post (g a) R) : Post (f >>= g) R := by
  intro s t c hc
  rw [bind_apply] at hc
  cases hx : f s with
  | error e => rw [hx] at hc; cases hc
  | ok r =>
      rw [hx] at hc
      exact hg r.1 (hf s r.2 r.1 hx) r.2 t c hc

theorem any : Post f fun _ => True := fun _ _ _ _ => trivial

theorem mono (hf : Post f P) (h : ∀ a, P a → Q a) : Post f Q := fun s t a ha => h a (hf s t a ha)

theorem ite {c : Prop} [Decidable c] {f' : Lay ε β α} (h : c → Post f P) (h' : ¬c → Post f' P) :
    Post (if c then f else f') P := by
  by_cases hc : c
  · rw [if_pos hc]
    exact h hc
  · rw [if_neg hc]
    exact h' hc

theorem loop {step : δ → Lay ε β (δ ⊕ α)} {left : δ → ℕ}
    {h : ∀ x s t y, step x s = .ok (.inl y, t) → left y < left x} {P : δ → α → Prop}
    (hstep : ∀ x, Post (step x) fun r => match r with
      | .inl y => ∀ a, P y a → P x a
      | .inr a => P x a) (x : δ) : Post (TwoPass.loop step left h x) (P x) := by
  intro s
  fun_induction TwoPass.loop step left h x s with
  | case1 x s e hx =>
      intro t a ha
      cases ha
  | case2 x s a t hx =>
      intro t' a' ha
      cases ha
      exact hstep x s t (.inr a) hx
  | case3 x s y t hx ih =>
      intro t' a ha
      exact hstep x s t (.inl y) hx a (ih t' a ha)

end Post

/-! ## What is appended -/

/-- `t` is `s` with the items `bs` appended. -/
structure Lays (s t : Sink β) (bs : List β) : Prop where
  count : t.k = s.k + bs.length
  counting : s.d = none → t.d = none
  laying : ∀ m, s.d = some m → ∃ m', t.d = some m' ∧ m'.size = m.size ∧
    (∀ i (hi : i < bs.length), m' (s.k + i) = bs[i]) ∧ ∀ j, j < s.k ∨ t.k ≤ j → m' j = m j

theorem Lays.nil (s : Sink β) : Lays s s [] where
  count := rfl
  counting := id
  laying m hm := ⟨m, hm, rfl, fun i hi => absurd hi (by simp), fun _ _ => rfl⟩

theorem Lays.put (s : Sink β) (b : β) : Lays s (s.put b) [b] where
  count := rfl
  counting h := by rw [Sink.put, h, Option.map_none]
  laying m hm := by
    refine ⟨m.set s.k b, by rw [Sink.put, hm, Option.map_some], rfl, fun i hi => ?_, fun j hj => ?_⟩
    · have hz : i = 0 := by simpa using hi
      subst hz
      exact Cells.set_self m s.k b
    · have hk : (s.put b).k = s.k + 1 := rfl
      exact Cells.set_of_ne m b (by omega)

theorem Lays.append {s t u : Sink β} {bs bs' : List β} (h : Lays s t bs) (h' : Lays t u bs') :
    Lays s u (bs ++ bs') where
  count := by rw [h'.count, h.count, List.length_append, Nat.add_assoc]
  counting hs := h'.counting (h.counting hs)
  laying m hm := by
    obtain ⟨m₁, ht, hsize, hin, hout⟩ := h.laying m hm
    obtain ⟨m₂, hu, hsize', hin', hout'⟩ := h'.laying m₁ ht
    have hcount := h.count
    have hcount' := h'.count
    refine ⟨m₂, hu, hsize'.trans hsize, fun i hi => ?_, fun j hj => ?_⟩
    · by_cases hlt : i < bs.length
      · rw [hout' _ (by omega), hin i hlt, List.getElem_append_left hlt]
      · rw [List.length_append] at hi
        rw [List.getElem_append_right (by omega), ← hin' (i - bs.length) (by omega)]
        congr 1
        omega
    · rw [hout' j (by omega), hout j (by omega)]

/-- The answer, and what is appended, are the same whatever the sink. -/
def Emits (f : Lay ε β α) : Prop :=
  (∃ e, ∀ s, f s = .error e) ∨ ∃ a bs, ∀ s, ∃ t, f s = .ok (a, t) ∧ Lays s t bs

namespace Emits

variable {f : Lay ε β α} {g : α → Lay ε β γ}

theorem pure (a : α) : Emits (Pure.pure a : Lay ε β α) := .inr ⟨a, [], fun s => ⟨s, rfl, .nil s⟩⟩

theorem lift (x : Except ε α) : Emits (liftM x : Lay ε β α) := by
  cases x with
  | error e => exact .inl ⟨e, fun _ => rfl⟩
  | ok a => exact .inr ⟨a, [], fun s => ⟨s, rfl, .nil s⟩⟩

theorem put (b : β) : Emits (TwoPass.put b : Lay ε β Unit) :=
  .inr ⟨(), [b], fun s => ⟨s.put b, rfl, .put s b⟩⟩

theorem bind (hf : Emits f) (hg : ∀ a, Emits (g a)) : Emits (f >>= g) := by
  rcases hf with ⟨e, he⟩ | ⟨a, bs, ha⟩
  · exact .inl ⟨e, fun s => by rw [bind_apply, he]⟩
  rcases hg a with ⟨e, he⟩ | ⟨c, bs', hc⟩
  · refine .inl ⟨e, fun s => ?_⟩
    obtain ⟨t, ht, -⟩ := ha s
    rw [bind_apply, ht]
    exact he t
  · refine .inr ⟨c, bs ++ bs', fun s => ?_⟩
    obtain ⟨t, ht, hl⟩ := ha s
    obtain ⟨u, hu, hl'⟩ := hc t
    exact ⟨u, by rw [bind_apply, ht]; exact hu, hl.append hl'⟩

theorem ite {c : Prop} [Decidable c] {f' : Lay ε β α} (h : Emits f) (h' : Emits f') :
    Emits (if c then f else f') := by
  split
  · exact h
  · exact h'

theorem putIf (c : Prop) [Decidable c] (b : β) : Emits (TwoPass.putIf c b : Lay ε β Unit) :=
  .ite (.put b) (.pure ())

theorem loop {step : δ → Lay ε β (δ ⊕ α)} {left : δ → ℕ}
    {h : ∀ x s t y, step x s = .ok (.inl y, t) → left y < left x} (hstep : ∀ x, Emits (step x))
    (x : δ) : Emits (TwoPass.loop step left h x) := by
  induction hn : left x using Nat.strong_induction_on generalizing x with
  | _ n ih =>
      rcases hstep x with ⟨e, he⟩ | ⟨r, bs, hr⟩
      · exact .inl ⟨e, fun s => loop_error (he s)⟩
      cases r with
      | inr a =>
          refine .inr ⟨a, bs, fun s => ?_⟩
          obtain ⟨t, ht, hl⟩ := hr s
          exact ⟨t, loop_answer ht, hl⟩
      | inl y =>
          have hlt : left y < n := by
            obtain ⟨t, ht, -⟩ := hr ⟨none, 0⟩
            exact hn ▸ h x _ t y ht
          rcases ih (left y) hlt y rfl with ⟨e, he⟩ | ⟨a, bs', ha⟩
          · refine .inl ⟨e, fun s => ?_⟩
            obtain ⟨t, ht, -⟩ := hr s
            rw [loop_next ht, he]
          · refine .inr ⟨a, bs ++ bs', fun s => ?_⟩
            obtain ⟨t, ht, hl⟩ := hr s
            obtain ⟨u, hu, hl'⟩ := ha t
            exact ⟨u, (loop_next ht).trans hu, hl.append hl'⟩

end Emits

/-- Both passes come to one answer, and the second fills what the first counted, no more and no
less, whatever stood there. -/
def Fills (f : Lay ε β α) : Prop := (∃ e, ∀ d, f ⟨d, 0⟩ = .error e) ∨
  ∃ (a : α) (bs : List β), f ⟨none, 0⟩ = .ok (a, ⟨none, bs.length⟩) ∧
    ∀ m : Cells β, ∃ m', f ⟨some m, 0⟩ = .ok (a, ⟨some m', bs.length⟩) ∧ m'.size = m.size ∧
      (∀ i (hi : i < bs.length), m' i = bs[i]) ∧ ∀ j, bs.length ≤ j → m' j = m j

theorem Emits.fills {f : Lay ε β α} (h : Emits f) : Fills f := by
  rcases h with ⟨e, he⟩ | ⟨a, bs, ha⟩
  · exact .inl ⟨e, fun d => he _⟩
  refine .inr ⟨a, bs, ?_, fun m => ?_⟩
  · obtain ⟨⟨d, k⟩, ht, hl⟩ := ha ⟨none, 0⟩
    have hd : d = none := hl.counting rfl
    have hk : k = bs.length := by simpa using hl.count
    rw [ht, hd, hk]
  · obtain ⟨⟨d, k⟩, ht, hl⟩ := ha ⟨some m, 0⟩
    obtain ⟨m', hd, hsize, hin, hout⟩ := hl.laying m rfl
    have hk : k = bs.length := by simpa using hl.count
    simp only at hd
    subst hd hk
    exact ⟨m', ht, hsize, fun i hi => by simpa using hin i hi, fun j hj => hout j (.inr hj)⟩

/-! ## Programs that append otherwise -/

/-- Two programs that stop alike, or answer as `R` says, whatever the sinks. -/
def Alike (R : α → γ → Prop) (f : Lay ε β α) (g : Lay ε β γ) : Prop :=
  (∃ e, (∀ s, f s = .error e) ∧ ∀ s, g s = .error e) ∨
    ∃ a c, R a c ∧ (∀ s, ∃ t, f s = .ok (a, t)) ∧ ∀ s, ∃ t, g s = .ok (c, t)

namespace Alike

variable {f : Lay ε β α} {g : Lay ε β γ} {R : α → γ → Prop}

theorem refl {f : Lay ε β α} (hf : Emits f) : Alike Eq f f := by
  rcases hf with ⟨e, he⟩ | ⟨a, bs, ha⟩
  · exact .inl ⟨e, he, he⟩
  · have hrun (s : Sink β) : ∃ t, f s = .ok (a, t) := by
      obtain ⟨t, ht, -⟩ := ha s
      exact ⟨t, ht⟩
    exact .inr ⟨a, a, rfl, hrun, hrun⟩

theorem pure {a : α} {c : γ} (h : R a c) :
    Alike R (Pure.pure a : Lay ε β α) (Pure.pure c : Lay ε β γ) :=
  .inr ⟨a, c, h, fun s => ⟨s, rfl⟩, fun s => ⟨s, rfl⟩⟩

theorem bind {α' γ' : Type} {S : α' → γ' → Prop} {F : α → Lay ε β α'} {G : γ → Lay ε β γ'}
    (h : Alike R f g) (hFG : ∀ a c, R a c → Alike S (F a) (G c)) : Alike S (f >>= F) (g >>= G) := by
  rcases h with ⟨e, hf, hg⟩ | ⟨a, c, hac, hf, hg⟩
  · exact .inl ⟨e, fun s => by rw [bind_apply, hf], fun s => by rw [bind_apply, hg]⟩
  have hF (s : Sink β) : ∃ t, (f >>= F) s = F a t := by
    obtain ⟨t, ht⟩ := hf s
    exact ⟨t, by rw [bind_apply, ht]⟩
  have hG (s : Sink β) : ∃ t, (g >>= G) s = G c t := by
    obtain ⟨t, ht⟩ := hg s
    exact ⟨t, by rw [bind_apply, ht]⟩
  rcases hFG a c hac with ⟨e, he, he'⟩ | ⟨a', c', hS, ha', hc'⟩
  · refine .inl ⟨e, fun s => ?_, fun s => ?_⟩
    · obtain ⟨t, ht⟩ := hF s
      rw [ht, he]
    · obtain ⟨t, ht⟩ := hG s
      rw [ht, he']
  · refine .inr ⟨a', c', hS, fun s => ?_, fun s => ?_⟩
    · obtain ⟨t, ht⟩ := hF s
      rw [ht]
      exact ha' t
    · obtain ⟨t, ht⟩ := hG s
      rw [ht]
      exact hc' t

theorem putIf (c c' : Prop) [Decidable c] [Decidable c'] (b b' : β) :
    Alike Eq (TwoPass.putIf c b : Lay ε β Unit) (TwoPass.putIf c' b') := by
  have hrun (c : Prop) [Decidable c] (b : β) (s : Sink β) :
      ∃ t, (TwoPass.putIf c b : Lay ε β Unit) s = .ok ((), t) := by
    rw [TwoPass.putIf]
    split
    · exact ⟨s.put b, rfl⟩
    · exact ⟨s, rfl⟩
  exact .inr ⟨(), (), rfl, hrun c b, hrun c' b'⟩

/-- The turns of two loops that stand at one place. -/
def Turn (R : α → γ → Prop) : δ ⊕ α → δ ⊕ γ → Prop
  | .inl x, .inl y => x = y
  | .inr a, .inr c => R a c
  | _, _ => False

theorem loop {left : δ → ℕ} {step : δ → Lay ε β (δ ⊕ α)} {step' : δ → Lay ε β (δ ⊕ γ)}
    {h : ∀ x s t y, step x s = .ok (.inl y, t) → left y < left x}
    {h' : ∀ x s t y, step' x s = .ok (.inl y, t) → left y < left x}
    (hstep : ∀ x, Alike (Turn R) (step x) (step' x)) (x : δ) :
    Alike R (TwoPass.loop step left h x) (TwoPass.loop step' left h' x) := by
  induction hn : left x using Nat.strong_induction_on generalizing x with
  | _ n ih =>
      rcases hstep x with ⟨e, hf, hg⟩ | ⟨a, c, hac, hf, hg⟩
      · exact .inl ⟨e, fun s => loop_error (hf s), fun s => loop_error (hg s)⟩
      match a, c, hac with
      | .inr a, .inr c, hac =>
          refine .inr ⟨a, c, hac, fun s => ?_, fun s => ?_⟩
          · obtain ⟨t, ht⟩ := hf s
            exact ⟨t, loop_answer ht⟩
          · obtain ⟨t, ht⟩ := hg s
            exact ⟨t, loop_answer ht⟩
      | .inl y, .inl _, rfl =>
          have hlt : left y < n := by
            obtain ⟨t, ht⟩ := hf ⟨none, 0⟩
            exact hn ▸ h x _ t y ht
          rcases ih (left y) hlt y rfl with ⟨e, he, he'⟩ | ⟨a, c, hac, ha, hc⟩
          · refine .inl ⟨e, fun s => ?_, fun s => ?_⟩
            · obtain ⟨t, ht⟩ := hf s
              rw [loop_next ht, he]
            · obtain ⟨t, ht⟩ := hg s
              rw [loop_next ht, he']
          · refine .inr ⟨a, c, hac, fun s => ?_, fun s => ?_⟩
            · obtain ⟨t, ht⟩ := hf s
              rw [loop_next ht]
              exact ha t
            · obtain ⟨t, ht⟩ := hg s
              rw [loop_next ht]
              exact hc t

end Alike

end TwoPass
