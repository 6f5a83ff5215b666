import Mathlib.Data.List.Induction
import LoveRuntime.Verification.Call.Dialogue

/-! The n-ary lanes against the chain of one-argument applications. Each lane
comes to one of three outcomes; each outcome answers what the chain answers. -/

namespace LoveRuntime.Call

open Dialogue

variable {E W : Type} {M : Machine E W}

/-- What a lane has done with the frame `args` and the callee `f`: entered a
`cur` of the exact width, answered one partial for a wider one, or gone to a
thread of its own that runs the chain. -/
inductive Outcome (M : Machine E W) (h : Heap E) (w : W) (next : Nat) (rest : List Word)
    (f : Word) (args : List Word) : State E W → Prop
  | hit {k : Nat} (hf : f = .ptr k) (hw : curWidth h f = some args.length) :
      Outcome M h w next rest f args ⟨k + 2, args ++ .ptr next :: rest, h, w⟩
  | short {k r : Nat} {v : Word} {h' : Heap E} (hf : f = .ptr k) (hr : 0 < r)
      (hw : curWidth h f = some (r + args.length)) (he : Ext h h')
      (hv : Holds h' v r args (k + 2)) :
      Outcome M h w next rest f args ⟨next, v :: rest, h', w⟩
  | chain {h' : Heap E} {i : Nat} {sp front : List Word} {last : Word} {cs : List (Cell E)}
      (he : Ext h h') (hi : h.hp ≤ i) (hargs : args = front ++ [last])
      (hc : CodeAt h' i ([.ap .quote, .x f] ++ (fused front ++ cs)))
      (hl : LastCall M h next rest sp last cs) :
      Outcome M h w next rest f args ⟨i, sp, h', w⟩

section Frames

/-- The in-place move keeps what lies past the frame and lays the frame `d` up. -/
private theorem relay_spec (d : Nat) (hd : 0 < d) (args mid tail : List Word)
    (hmid : mid.length = d) :
    (relay d args.length (args ++ mid ++ tail)).drop d = args ++ tail := by
  induction args using List.reverseRecOn generalizing mid tail with
  | nil => simp [relay, ← hmid]
  | append_singleton args a ih =>
      obtain ⟨b, bs, hb⟩ : ∃ bs b, mid = bs ++ [b] := by
        cases hm : mid.reverse with
        | nil =>
            have : mid = [] := by simpa using hm
            subst this
            simp at hmid
            omega
        | cons b bs =>
            exact ⟨bs.reverse, b, by rw [← List.reverse_reverse mid, hm, List.reverse_cons]⟩
      subst hb
      have hlen : (args ++ [a]).length = args.length + 1 := by simp
      rw [hlen, relay]
      have hget : (args ++ [a] ++ (b ++ [bs]) ++ tail)[args.length]? = some a := by simp
      rw [hget]
      have hset : (args ++ [a] ++ (b ++ [bs]) ++ tail).set (d + args.length) a =
          args ++ ([a] ++ b) ++ ([a] ++ tail) := by
        have hd' : d + args.length = (args ++ ([a] ++ b)).length := by
          simp only [List.length_append, List.length_cons, List.length_nil] at hmid ⊢
          omega
        have hassoc : args ++ [a] ++ (b ++ [bs]) ++ tail =
            (args ++ ([a] ++ b)) ++ (bs :: tail) := by simp
        rw [hassoc, hd', List.set_append_right _ _ (Nat.le_refl _), Nat.sub_self]
        simp
      simp only [hset]
      rw [ih ([a] ++ b) ([a] ++ tail) (by simp at hmid ⊢; omega)]
      simp

end Frames

section Outcomes

variable {h : Heap E} {w : W} {p : Nat} {f : Word} {args rest frame : List Word}

private theorem holds_uncn (h : Heap E) (k r : Nat) (hr : 0 < r) (args : List Word) :
    Holds (h.tagthread (curHead r ++ [.ap .uncn, .count args.length] ++ args.map .x ++
      [.x (.ptr (k + 2))])) (.ptr h.hp) r args (k + 2) := by
  have hat := codeAt_tagthread h (curHead r ++ ([.ap .uncn, .count args.length] ++ args.map .x ++
      [.x (.ptr (k + 2))]))
  have hassoc : curHead (E := E) r ++ [.ap .uncn, .count args.length] ++ args.map .x ++
      [.x (.ptr (k + 2))] = curHead r ++ ([.ap .uncn, .count args.length] ++ args.map .x ++
      [.x (.ptr (k + 2))]) := by simp
  rw [hassoc]
  rw [codeAt_append] at hat
  have hu := Uncs.uncn hat.2 Uncs.base
  exact ⟨h.hp, rfl, hr, hat.1, by simpa using hu⟩

private theorem split_last (hne : args ≠ []) : ∃ front last, args = front ++ [last] :=
  ⟨args.dropLast, args.getLast hne, (List.dropLast_append_getLast hne).symm⟩

/-- The miss looks at the callee's width and nothing else. -/
private theorem outcome_of_miss {s₀ : State E W} {next drop : Nat} {rest' : List Word}
    (hheap : s₀.heap = h) (hn : h.count (s₀.ip + 1) = some args.length)
    (hdrop : missDrop s₀ = some drop)
    (hf : s₀.sp[args.length]? = some f)
    (hpart : ∀ k r, f = .ptr k → 0 < r → curWidth h f = some (r + args.length) →
      ∃ s, missPartial s₀ args.length (r + args.length) drop k = some s ∧
        Outcome M h w next rest' f args s)
    (hchain : ∃ s, missChain s₀ args.length drop f = some s ∧ Outcome M h w next rest' f args s) :
    ∃ s, lvmApoMiss s₀ = some s ∧ Outcome M h w next rest' f args s := by
  subst hheap
  simp only [lvmApoMiss, hn, hdrop, hf, Option.bind_eq_bind, Option.bind_some]
  cases f with
  | num n => exact hchain
  | ptr k =>
      dsimp only
      by_cases hlt : args.length < (curWidth s₀.heap (.ptr k)).getD 0
      · rw [if_pos hlt]
        cases hw : curWidth s₀.heap (.ptr k) with
        | none => simp [hw] at hlt
        | some m =>
            rw [hw, Option.getD_some] at hlt
            have hm : m = (m - args.length) + args.length := by omega
            rw [hm] at hw
            rw [Option.getD_some, hm]
            exact hpart k (m - args.length) rfl (by omega) hw
      · rw [if_neg hlt]
        exact hchain

private theorem curHead_sub (r n : Nat) :
    (if 1 < r + n - n then [.ap .cur, .count (r + n - n)] else []) = curHead (E := E) r := by
  rw [Nat.add_sub_cancel]
  rfl

private theorem fused_tagthread (front : List Word) (cs : List (Cell E)) :
    CodeAt (h.tagthread ([.ap .quote, .x f] ++
      (front.flatMap fun a => [.ap .quoteap, .x a]) ++ cs)) h.hp
      ([.ap .quote, .x f] ++ (fused front ++ cs)) := by
  have hat := codeAt_tagthread h ([.ap .quote, .x f] ++
      (front.flatMap fun a => [.ap .quoteap, .x a]) ++ cs)
  rw [List.append_assoc] at hat ⊢
  exact hat

/-- The miss of the plain form. -/
private theorem outcome_apoMiss (hne : args ≠ [])
    (htail : isTail (⟨p, args ++ f :: rest, h, w⟩ : State E W) = false)
    (hn : h.cell (p + 1) = some (.count args.length)) :
    ∃ s, lvmApoMiss (⟨p, args ++ f :: rest, h, w⟩ : State E W) = some s ∧
      Outcome M h w (p + 2) rest f args s := by
  have hzero : missDrop (⟨p, args ++ f :: rest, h, w⟩ : State E W) = some 0 := by
    simp [missDrop, htail]
  refine outcome_of_miss rfl (count_of_cell hn) hzero (by simp) ?_ ?_
  · intro k r hf hr hw
    have htake : (args ++ f :: rest).take args.length = args := by simp
    have hset : ((args ++ f :: rest).drop args.length).set 0 (.ptr h.hp) = .ptr h.hp :: rest := by
      simp
    simp only [missPartial, htail, curHead_sub, htake, hset]
    exact ⟨_, rfl, .short hf hr hw (ext_tagthread _ _) (holds_uncn h k r hr args)⟩
  · obtain ⟨front, last, hargs⟩ := split_last hne
    have hlast : (args ++ f :: rest)[args.length - 1]? = some last := by
      subst hargs
      simp
    have hfront : (args ++ f :: rest).take (args.length - 1) = front := by
      subst hargs
      simp
    have hdrop : (args ++ f :: rest).drop (args.length + 1 + 0) = rest := by simp
    simp only [missChain, hlast, hfront, htail, hdrop]
    exact ⟨_, rfl, .chain (ext_tagthread _ _) (Nat.le_refl _) hargs (fused_tagthread _ _)
      (lastCall_quoteap last)⟩

/-- The miss of the tail form: the frame goes first, and its return is what the
partial or the chain answers to. -/
private theorem outcome_tapoMiss {ret : Nat} (hne : args ≠ [])
    (htail : isTail (⟨p, args ++ f :: (frame ++ .ptr ret :: rest), h, w⟩ : State E W) = true)
    (hn : h.cell (p + 1) = some (.count args.length))
    (hd : h.cell (p + 2) = some (.count frame.length)) :
    ∃ s, lvmApoMiss (⟨p, args ++ f :: (frame ++ .ptr ret :: rest), h, w⟩ : State E W) = some s ∧
      Outcome M h w ret rest f args s := by
  have hsome : missDrop (⟨p, args ++ f :: (frame ++ .ptr ret :: rest), h, w⟩ : State E W) =
      some frame.length := by
    simp [missDrop, htail, count_of_cell hd]
  refine outcome_of_miss rfl (count_of_cell hn) hsome (by simp) ?_ ?_
  · intro k r hf hr hw
    have htake : (args ++ f :: (frame ++ .ptr ret :: rest)).take args.length = args := by simp
    have hset : ((args ++ f :: (frame ++ .ptr ret :: rest)).drop args.length).set 0 (.ptr h.hp) =
        .ptr h.hp :: (frame ++ .ptr ret :: rest) := by simp
    have hret : (Word.ptr h.hp :: (frame ++ .ptr ret :: rest))[frame.length + 1]? =
        some (.ptr ret) := by simp
    have hover : ((Word.ptr h.hp :: (frame ++ .ptr ret :: rest)).set (frame.length + 1)
        (.ptr h.hp)).drop (frame.length + 1) = .ptr h.hp :: rest := by
      simp
    simp only [missPartial, htail, curHead_sub, htake, hset, hret, hover]
    exact ⟨_, rfl, .short hf hr hw (ext_tagthread _ _) (holds_uncn h k r hr args)⟩
  · obtain ⟨front, last, hargs⟩ := split_last hne
    have hlast : (args ++ f :: (frame ++ .ptr ret :: rest))[args.length - 1]? = some last := by
      subst hargs
      simp
    have hfront : (args ++ f :: (frame ++ .ptr ret :: rest)).take (args.length - 1) = front := by
      subst hargs
      simp
    have hdrop : (args ++ f :: (frame ++ .ptr ret :: rest)).drop
        (args.length + 1 + frame.length) = .ptr ret :: rest := by
      have hsplit : args ++ f :: (frame ++ .ptr ret :: rest) =
          (args ++ f :: frame) ++ .ptr ret :: rest := by simp
      have hlen : args.length + 1 + frame.length = (args ++ f :: frame).length := by
        simp
        omega
      rw [hsplit, hlen, List.drop_left]
    simp only [missChain, hlast, hfront, htail, hdrop]
    exact ⟨_, rfl, .chain (ext_tagthread _ _) (Nat.le_refl _) hargs (fused_tagthread _ _)
      (lastCall_tap [] last)⟩

/-- The plain lanes, from the instruction on. -/
theorem outcome_lane (lane : Lane) (hne : args ≠ [])
    (hc : CodeAt h p [.ap (lane.op E), .count args.length]) :
    ∃ s, M.step ⟨p, args ++ f :: rest, h, w⟩ = some s ∧
      Outcome M h w (p + 2) rest f args s := by
  obtain ⟨hop, hn, -⟩ := hc
  cases lane with
  | kapo =>
      change h.cell p = some (.ap .apo) at hop
      have hmiss : ∃ s, lvmApoMiss (⟨p, args ++ f :: rest, h, w⟩ : State E W) = some s ∧
          Outcome M h w (p + 2) rest f args s :=
        outcome_apoMiss hne (by simp [isTail, hop]) hn
      have hf : (args ++ f :: rest)[args.length]? = some f := by simp
      simp only [Machine.step, hop, lvmApo, count_of_cell hn, hf, Option.bind_eq_bind,
        Option.bind_some]
      split
      next k hok =>
        have hset : (args ++ Word.ptr k :: rest).set args.length (.ptr (p + 2)) =
            args ++ .ptr (p + 2) :: rest := by simp
        rw [hset]
        exact ⟨_, rfl, .hit rfl (by simpa [apnOk] using hok)⟩
      next => exact hmiss
  | kpart =>
      change h.cell p = some (.ap .part) at hop
      simp only [Machine.step, hop]
      exact outcome_apoMiss hne (by simp [isTail, hop]) hn

/-- The tail lanes, from the instruction on. -/
theorem outcome_tailLane (lane : Lane) {ret : Nat} (hne : args ≠ [])
    (hc : CodeAt h p [.ap (lane.tailOp E), .count args.length, .count frame.length]) :
    ∃ s, M.step ⟨p, args ++ f :: (frame ++ .ptr ret :: rest), h, w⟩ = some s ∧
      Outcome M h w ret rest f args s := by
  obtain ⟨hop, hn, hd, -⟩ := hc
  cases lane with
  | kapo =>
      change h.cell p = some (.ap .tapo) at hop
      have hmiss : ∃ s, lvmApoMiss (⟨p, args ++ f :: (frame ++ .ptr ret :: rest), h, w⟩ :
          State E W) = some s ∧ Outcome M h w ret rest f args s :=
        outcome_tapoMiss hne (by simp [isTail, hop]) hn hd
      have hf : (args ++ f :: (frame ++ .ptr ret :: rest))[args.length]? = some f := by simp
      simp only [Machine.step, hop, lvmTapo, count_of_cell hn, count_of_cell hd, hf,
        Option.bind_eq_bind, Option.bind_some]
      split
      next k hok =>
        have hrelay : (relay (frame.length + 1) args.length
            (args ++ Word.ptr k :: (frame ++ .ptr ret :: rest))).drop (frame.length + 1) =
            args ++ .ptr ret :: rest := by
          have hmove := relay_spec (frame.length + 1) (by omega) args (.ptr k :: frame)
            (.ptr ret :: rest) (by simp)
          simpa using hmove
        rw [hrelay]
        exact ⟨_, rfl, .hit rfl (by simpa [apnOk] using hok)⟩
      next => exact hmiss
  | kpart =>
      change h.cell p = some (.ap .tpart) at hop
      simp only [Machine.step, hop]
      exact outcome_tapoMiss hne (by simp [isTail, hop]) hn hd

end Outcomes

section Reference

variable {L : Likeness M} {h : Heap E} {w : W} {next : Nat} {rest : List Word} {f : Word}

/-- A thread that runs the chain through `ap` over `args` and answers to `next`. -/
structure Reference (M : Machine E W) (h : Heap E) (next : Nat) (rest : List Word) (f : Word)
    (args : List Word) (i : Nat) (sp : List Word) (h' : Heap E) : Prop where
  ext : Ext h h'
  fresh : h.hp ≤ i
  code : ∃ front last cs, args = front ++ [last] ∧
    CodeAt h' i ([.ap .quote, .x f] ++ (apl2r front ++ cs)) ∧
    LastCall M h next rest sp last cs

theorem reference_chain (hne : args ≠ []) :
    Reference M h next rest f args h.hp rest (h.tagthread (chain f args next)) := by
  obtain ⟨front, last, rfl⟩ := split_last hne
  refine ⟨ext_tagthread _ _, Nat.le_refl _, front, last, _, rfl, ?_, lastCall_quote_ap last⟩
  have hat := codeAt_tagthread h (chain f (front ++ [last]) next)
  simpa [chain, apl2r] using hat

theorem reference_chainTail (front frame : List Word) (last : Word) :
    Reference M h next rest f (front ++ [last]) h.hp (frame ++ .ptr next :: rest)
      (h.tagthread (chainTail f front last frame.length)) := by
  refine ⟨ext_tagthread _ _, Nat.le_refl _, front, last, _, rfl, ?_, lastCall_tap frame last⟩
  have hat := codeAt_tagthread h (chainTail f front last frame.length)
  simpa [chainTail] using hat

/-- The chain over a wider `cur` answers a partial; over a `cur` of the exact
width it enters the body with the same frame the lane lays. -/
theorem Outcome.meansSame {args sp : List Word} {i : Nat} {h' : Heap E} {s : State E W}
    (hwide : 1 < args.length) (hm : L.mem h w h w) (ho : Outcome M h w next rest f args s)
    (hr : Reference M h next rest f args i sp h') :
    MeansSame L h next rest s ⟨i, sp, h', w⟩ := by
  obtain ⟨he, hi, front, last, cs, hargs, hc, hl⟩ := hr
  obtain ⟨hq, hx, hc⟩ := hc
  have hquote : M.step ⟨i, sp, h', w⟩ = _ := step_quote M ⟨hq, hx, trivial⟩
  refine .right hquote ?_
  have hlen : args.length = front.length + 1 := by simp [hargs]
  cases ho with
  | hit hf hw =>
      subst hf
      have hv := (holds_of_curWidth hwide hw).ext he
      rw [hlen, Nat.add_comm] at hv
      obtain ⟨v, h₁, j, hrun, he₁, hij, hcs, hv₁⟩ :=
        Holds.run_apl2r (M := M) front sp w hv (by omega) hc
      obtain ⟨t, r, ht, -, hent, hret⟩ := hl h₁ j v w (by omega) hcs
      obtain ⟨t', hent', hbody⟩ := hv₁.enter M last (.ptr r) rest w
      refine .runRight (hrun.trans (ht.trans (.head (hent.trans hent') hbody))) ?_
      have hframe : [] ++ front ++ [last] = args := by simp [hargs]
      rw [hframe]
      have hmem : L.mem h w h₁ w := L.right hm (he.trans he₁)
      refine .ask (.enter (L.refl _) (List.forall₂_same.mpr fun v _ => L.refl v) hmem) ?_
      rintro s' t' ⟨u, u', h₂, h₂', w₂, w₂', hu, hm₂, -, hk, rfl, rfl⟩
      exact .runRight (hret u' h₂' w₂' hk) (.done (.like hu hm₂))
  | short hf hr hw he' hv' =>
      subst hf
      have hv := (holds_of_curWidth (by omega) hw).ext he
      rw [hlen, show ∀ a b, a + (b + 1) = a + 1 + b by omega] at hv
      obtain ⟨v, h₁, j, hrun, he₁, hij, hcs, hv₁⟩ :=
        Holds.run_apl2r (M := M) front sp w hv (by omega) hc
      obtain ⟨t, ret, ht, -, hent, hret⟩ := hl h₁ j v w (by omega) hcs
      obtain ⟨t', v₂, h₂, hent', hstep, he₂, hv₂⟩ := hv₁.apply M hr last ret rest w
      have hback := hret v₂ h₂ w (Kept.ofExt he₂)
      refine .runRight (hrun.trans (ht.trans (.head (hent.trans hent') (.head hstep hback)))) ?_
      have hframe : [] ++ front ++ [last] = args := by simp [hargs]
      rw [hframe] at hv₂
      exact .done (.held hv' hv₂ (L.right (L.left hm he') ((he.trans he₁).trans he₂)))
  | chain he' hi' hargs' hc' hl' =>
      obtain ⟨hq', hx', hc'⟩ := hc'
      have hsame := hargs.symm.trans hargs'
      obtain ⟨rfl, hlast⟩ := List.append_inj' hsame rfl
      cases hlast
      refine .left (step_quote M ⟨hq', hx', trivial⟩) ?_
      exact meansSame_of_chains argCall_quoteap argCall_quote_ap hl' hl front (by omega) (by omega) hc' hc (L.refl f)
        (L.right (L.left hm he') he)

/-- One argument: the call laid is `ap` or `tap` itself. -/
theorem meansSame_of_single {a : Word} {sp : List Word} {i : Nat} {h' : Heap E}
    {s : State E W} (hm : L.mem h w h w) (hs : M.step s = entry M h w f a (.ptr next) rest)
    (hsw : s.world = w) (hr : Reference M h next rest f [a] i sp h') :
    MeansSame L h next rest s ⟨i, sp, h', w⟩ := by
  obtain ⟨he, hi, front, last, cs, hargs, hc, hl⟩ := hr
  obtain ⟨rfl, rfl⟩ : front = [] ∧ last = a := by
    cases front with
    | nil => simpa using hargs.symm
    | cons b bs => simp at hargs
  obtain ⟨hq, hx, hc⟩ := hc
  refine .right (step_quote M ⟨hq, hx, trivial⟩) ?_
  obtain ⟨t, r, ht, htw, hent, hret⟩ := hl h' (i + 2) f w (by omega) hc
  refine .runRight ht (meansSame_of_entry (L.refl f) (L.right hm he) hs hsw hent htw ?_)
  intro u u' h₁ h₁' w₁ w₁' hu hm₁ _ hk
  exact .runRight (hret u' h₁' w₁' hk) (.done (.like hu hm₁))

/-- The plain call laid for `args`. -/
theorem kapv_meansSame (lane : Lane) {args sp : List Word} {p i : Nat} {h' : Heap E}
    (hm : L.mem h w h w) (hne : args ≠ []) (hc : CodeAt h p (kapv lane args.length))
    (hr : Reference M h (p + (kapv (E := E) lane args.length).length) rest f args i sp h') :
    MeansSame L h (p + (kapv (E := E) lane args.length).length) rest
      ⟨p, args ++ f :: rest, h, w⟩ ⟨i, sp, h', w⟩ := by
  by_cases hwide : 1 < args.length
  · simp only [kapv, if_pos hwide] at hc hr ⊢
    obtain ⟨s, hs, ho⟩ : ∃ s, M.step ⟨p, args ++ f :: rest, h, w⟩ = some s ∧
        Outcome M h w (p + 2) rest f args s := outcome_lane lane hne hc
    exact .left hs (ho.meansSame hwide hm hr)
  · simp only [kapv, if_neg hwide] at hc hr ⊢
    obtain ⟨a, rfl⟩ : ∃ a, args = [a] := by
      rw [← List.length_eq_one_iff]
      have := List.length_pos_iff.mpr hne
      omega
    exact meansSame_of_single hm (step_ap M hc.1 f a) rfl hr

/-- The tail call laid for `args` over a frame. -/
theorem kapvTail_meansSame (lane : Lane) {args frame sp : List Word} {p i ret : Nat}
    {h' : Heap E} (hm : L.mem h w h w) (hne : args ≠ [])
    (hc : CodeAt h p (kapvTail lane args.length frame.length))
    (hr : Reference M h ret rest f args i sp h') :
    MeansSame L h ret rest ⟨p, args ++ f :: (frame ++ .ptr ret :: rest), h, w⟩
      ⟨i, sp, h', w⟩ := by
  by_cases hwide : 1 < args.length
  · simp only [kapvTail, if_pos hwide] at hc
    obtain ⟨s, hs, ho⟩ : ∃ s, M.step ⟨p, args ++ f :: (frame ++ .ptr ret :: rest), h, w⟩ = some s ∧
        Outcome M h w ret rest f args s := outcome_tailLane lane hne hc
    exact .left hs (ho.meansSame hwide hm hr)
  · simp only [kapvTail, if_neg hwide] at hc
    obtain ⟨a, rfl⟩ : ∃ a, args = [a] := by
      rw [← List.length_eq_one_iff]
      have := List.length_pos_iff.mpr hne
      omega
    exact meansSame_of_single hm (step_tap M hc f a _) rfl hr

end Reference

/-- Words as they are, over one world and the same cells below `h₀`'s. -/
def Likeness.exact (M : Machine E W) (h₀ : Heap E) : Likeness M where
  rel := Eq
  mem h w h' w' := w = w' ∧ h₀.hp ≤ h.hp ∧ h₀.hp ≤ h'.hp ∧ ∀ a, a < h₀.hp → h.cell a = h'.cell a
  refl _ := rfl
  num hv n := by rw [hv]
  hook hm := by rw [hm.1]
  left hm e := ⟨hm.1, Nat.le_trans hm.2.1 e.hp_le, hm.2.2.1, fun a ha =>
    (e.cell_eq a (Nat.lt_of_lt_of_le ha hm.2.1)).trans (hm.2.2.2 a ha)⟩
  right hm e := ⟨hm.1, hm.2.1, Nat.le_trans hm.2.2.1 e.hp_le, fun a ha =>
    (hm.2.2.2 a ha).trans (e.cell_eq a (Nat.lt_of_lt_of_le ha hm.2.2.1)).symm⟩

end LoveRuntime.Call

namespace LoveRuntime

open Call

/-- The call the compiler lays for a callee and its arguments, of any number,
means the chain that applies them one at a time through `ap`: the plain form
answers past itself, and the tail form answers, as `tap` does, to the return
the frame covers. The tail form is the plain chain begun with the frame gone
and that return to resume at. -/
theorem naryCall_means_curried {E W : Type} (M : Machine E W) (L : Likeness M) (h : Heap E) (w : W)
    (hm : L.mem h w h w) (lane : Lane) (f : Word) (front : List Word) (last : Word)
    (rest : List Word) (p : Nat) :
    let args := front ++ [last]
    let next := p + (kapv (E := E) lane args.length).length
    (CodeAt h p (kapv lane args.length) →
      MeansSame L h next rest ⟨p, args ++ f :: rest, h, w⟩
        ⟨h.hp, rest, h.tagthread (chain f args next), w⟩) ∧
    ∀ (frame : List Word) (ret : Nat),
      CodeAt h p (kapvTail lane args.length frame.length) →
      MeansSame L h ret rest ⟨p, args ++ f :: (frame ++ .ptr ret :: rest), h, w⟩
        ⟨h.hp, frame ++ .ptr ret :: rest,
          h.tagthread (chainTail f front last frame.length), w⟩ ∧
      MeansSame L h ret rest ⟨p, args ++ f :: (frame ++ .ptr ret :: rest), h, w⟩
        ⟨h.hp, rest, h.tagthread (chain f args ret), w⟩ := by
  intro args next
  have hne : args ≠ [] := by simp [args]
  refine ⟨fun hc => kapv_meansSame lane hm hne hc (reference_chain hne), ?_⟩
  intro frame ret hc
  exact ⟨kapvTail_meansSame lane hm hne hc (reference_chainTail front frame last),
    kapvTail_meansSame lane hm hne hc (reference_chain hne)⟩

/-- A heap that holds a call of two arguments and a `cur` of two. -/
def callHeap : Heap Empty where
  cell a := [.ap .apo, .count 2, .ap .cur, .count 2, .ap .ret, .count 1][a]?
  hp := 6
  clear a ha := List.getElem?_eq_none (by simpa using ha)

theorem naryCall_means_curried_two :
    let M : Machine Empty Unit := ⟨fun e => e.elim, fun _ => .num 0, 0⟩
    MeansSame (Likeness.exact M callHeap) callHeap 2 [.num 9]
      ⟨0, [.num 7, .num 8, .ptr 2, .num 9], callHeap, ()⟩
      ⟨6, [.num 9], callHeap.tagthread (chain (.ptr 2) [.num 7, .num 8] 2), ()⟩ := by
  intro M
  refine (naryCall_means_curried M (Likeness.exact M callHeap) callHeap () ?_ .kapo (.ptr 2)
    [.num 7] (.num 8) [.num 9] 0).1 ?_
  · exact ⟨rfl, Nat.le_refl _, Nat.le_refl _, fun _ _ => rfl⟩
  · exact ⟨rfl, rfl, trivial⟩

end LoveRuntime
