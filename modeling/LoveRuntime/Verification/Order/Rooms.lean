import LoveRuntime.Library.Outcome
import LoveRuntime.Model.Order

/-! An operation whose walk spends the gap runs again in a larger one. What a walk answers in
one gap it answers in every larger one. -/

namespace LoveRuntime

open Outcome

variable {room room' fuel fuel' : ℕ}

namespace Core

variable {g : Core}

/-! ## Hash -/

theorem hashAt_persists (hroom : room ≤ room') (hfuel : fuel ≤ fuel') {x h : ℕ} {fold : Bool}
    {sw : List ℕ} (hsw : sw.length ≤ room) :
    Persists (g.hashAt room fuel x h fold sw) (g.hashAt room' fuel' x h fold sw) := by
  induction fuel generalizing fuel' x h fold sw with
  | zero => exact .error _ _
  | succ fuel ih =>
      obtain ⟨fuel', rfl⟩ : ∃ n, fuel' = n + 1 := ⟨fuel' - 1, by omega⟩
      unfold hashAt
      apply Persists.ite
      · intro _
        apply Persists.guarded (by omega)
        intro hne _
        exact ih (by omega) (by rw [List.length_cons]; omega)
      · intro _
        apply Persists.bind (.refl _)
        rintro ⟨t, obj⟩ -
        have hless : (obj && decide (room' - sw.length < g.trayNelem x)) = true →
            (obj && decide (room - sw.length < g.trayNelem x)) = true := by
          rw [Bool.and_eq_true, Bool.and_eq_true, decide_eq_true_iff, decide_eq_true_iff]
          exact fun ⟨ho, hlt⟩ => ⟨ho, by omega⟩
        apply Persists.guarded hless
        intro hroom _
        have hlen : (if obj then g.trayCells x ++ sw else sw).length ≤ room := by
          cases obj with
          | false => exact hsw
          | true =>
              have : g.trayNelem x ≤ room - sw.length := by simpa using hroom
              simp only [if_true, List.length_append, trayCells, List.length_map, List.length_range]
              omega
        apply Persists.ite
        · exact fun _ => .refl _
        · intro _
          cases hw : (if obj then g.trayCells x ++ sw else sw) with
          | nil => exact .refl _
          | cons y sw =>
              rw [hw, List.length_cons] at hlen
              exact ih (by omega) (by omega)

theorem hash_persists (hroom : room ≤ room') (hfuel : fuel ≤ fuel') (x : ℕ) :
    Persists (g.hash fuel room x) (g.hash fuel' room' x) := by
  unfold hash
  apply Persists.ite
  · exact fun _ => .refl _
  · intro _
    apply Persists.ite
    · exact fun _ => hashAt_persists hroom hfuel (Nat.zero_le _)
    · intro _
      apply Persists.bind (.refl _)
      rintro ⟨t, obj⟩ -
      apply Persists.ite
      · exact fun _ => hashAt_persists hroom hfuel (Nat.zero_le _)
      · exact fun _ => .refl _

/-! ## Equality

The worklist takes its room two words at a time. -/

variable {nseen nseen' : ℕ}

theorem fnEqFrom_persists (hroom : room / 2 ≤ room' / 2) (a ta b tb : ℕ) {n i : ℕ} {w : List (ℕ × ℕ)} :
    Persists (g.fnEqFrom a ta b tb room n i w) (g.fnEqFrom a ta b tb room' n i w) := by
  induction n generalizing i w with
  | zero => exact .refl _
  | succ n ih =>
      unfold fnEqFrom
      apply Persists.bind (.refl _)
      rintro (_ | _ | ⟨p, _⟩) -
      · exact .refl _
      · exact ih
      · exact Persists.guarded (by omega) fun _ _ => ih

theorem fnEq_persists (hroom : room / 2 ≤ room' / 2) (a b : ℕ) (w : List (ℕ × ℕ)) :
    Persists (g.fnEq a b room w) (g.fnEq a b room' w) := by
  unfold fnEq
  refine Persists.bind (.refl _) fun ta _ => Persists.bind (.refl _) fun tb _ => ?_
  exact Persists.ite (fun _ => fnEqFrom_persists hroom a ta b tb) fun _ => .refl _

theorem eqvFn_persists (hroom : room / 2 ≤ room' / 2) (hseen : nseen ≤ nseen') {a b : ℕ}
    {seen work : List (ℕ × ℕ)} (hlen : seen.length ≤ nseen) :
    Persists (g.eqvFn nseen room a b seen work) (g.eqvFn nseen' room' a b seen work) := by
  unfold eqvFn
  refine Persists.bind (.refl _) fun a _ => Persists.bind (.refl _) fun b _ => ?_
  apply Persists.ite
  · exact fun _ => .refl _
  · intro _
    apply Persists.ite
    · exact fun _ => .refl _
    · intro _
      apply Persists.ite
      · intro _
        apply Persists.ite
        · intro _
          apply Persists.bind (.refl _)
          rintro ⟨ba, na⟩ -
          apply Persists.bind (.refl _)
          rintro ⟨bb, nb⟩ -
          apply Persists.ite
          · exact fun _ => Persists.guarded (by omega) fun _ _ => .refl _
          · exact fun _ => .refl _
        · exact fun _ => .refl _
      · intro _
        apply Persists.ite
        · exact fun _ => .refl _
        · intro _
          apply Persists.guarded (by omega)
          intro _ _
          apply Persists.bind (fnEq_persists hroom a b work)
          rintro (_ | w) -
          · exact .refl _
          · exact .refl _

/-- The pairs of threads taken as equal stay within their slots. -/
def EqNext.Fits (nseen : ℕ) : EqNext → Prop
  | .settled _ => True
  | .walk _ _ seen _ => seen.length ≤ nseen

theorem drain_fits {seen work : List (ℕ × ℕ)} (hlen : seen.length ≤ nseen) :
    (drain seen work).Fits nseen := by
  cases work with
  | nil => trivial
  | cons q work => exact hlen

theorem eqvFn_fits {a b : ℕ} {seen work : List (ℕ × ℕ)} (hlen : seen.length ≤ nseen) :
    Yields (EqNext.Fits nseen) (g.eqvFn nseen room a b seen work) := by
  unfold eqvFn
  refine Yields.bind fun a => Yields.bind fun b => ?_
  apply Yields.ite
  · exact fun _ => .ok (drain_fits hlen)
  · intro _
    apply Yields.ite
    · exact fun _ => .ok trivial
    · intro _
      apply Yields.ite
      · intro _
        apply Yields.ite
        · intro _
          refine Yields.bind fun ⟨ba, na⟩ => Yields.bind fun ⟨bb, nb⟩ => ?_
          apply Yields.ite
          · intro _
            exact Yields.ite (fun _ => .error _) fun _ => Yields.bind fun w => .ok hlen
          · exact fun _ => .ok trivial
        · exact fun _ => .ok trivial
      · intro _
        apply Yields.ite
        · exact fun _ => .ok (drain_fits hlen)
        · intro _
          apply Yields.ite
          · exact fun _ => .error _
          · intro hne
            refine Yields.bind fun w => ?_
            cases w with
            | none => exact .ok trivial
            | some w =>
                refine .ok (drain_fits ?_)
                rw [List.length_cons]
                omega

theorem eqvTurn_fits {a b : ℕ} {seen work : List (ℕ × ℕ)} (hlen : seen.length ≤ nseen) :
    Yields (EqNext.Fits nseen) (g.eqvTurn nseen room a b seen work) := by
  unfold eqvTurn
  cases g.eqvLeaf a b with
  | no => exact .ok trivial
  | yes => exact .ok (drain_fits hlen)
  | coin => exact .ok hlen
  | chain => exact Yields.ite (fun _ => .error _) fun _ => .ok hlen
  | tray => exact Yields.ite (fun _ => .error _) fun _ => .ok (drain_fits hlen)
  | fn => exact eqvFn_fits hlen

theorem eqvTurn_persists (hroom : room / 2 ≤ room' / 2) (hseen : nseen ≤ nseen') {a b : ℕ}
    {seen work : List (ℕ × ℕ)} (hlen : seen.length ≤ nseen) :
    Persists (g.eqvTurn nseen room a b seen work) (g.eqvTurn nseen' room' a b seen work) := by
  unfold eqvTurn
  cases g.eqvLeaf a b with
  | no => exact .refl _
  | yes => exact .refl _
  | coin => exact .refl _
  | chain => exact Persists.guarded (by omega) fun _ _ => .refl _
  | tray => exact Persists.guarded (by omega) fun _ _ => .refl _
  | fn => exact eqvFn_persists hroom hseen hlen

theorem eqvAt_persists (hroom : room / 2 ≤ room' / 2) (hseen : nseen ≤ nseen') (hfuel : fuel ≤ fuel')
    {a b : ℕ} {seen work : List (ℕ × ℕ)} (hlen : seen.length ≤ nseen) :
    Persists (g.eqvAt nseen room fuel a b seen work) (g.eqvAt nseen' room' fuel' a b seen work) := by
  induction fuel generalizing fuel' a b seen work with
  | zero => exact .error _ _
  | succ fuel ih =>
      obtain ⟨fuel', rfl⟩ : ∃ n, fuel' = n + 1 := ⟨fuel' - 1, by omega⟩
      unfold eqvAt
      apply Persists.bind (eqvTurn_persists hroom hseen hlen)
      intro next hnext
      have hfits := eqvTurn_fits hlen next hnext
      cases next with
      | settled equal => exact .refl _
      | walk a b seen work => exact ih (by omega) hfits

theorem eqv_persists (hroom : room ≤ room') (hfuel : fuel ≤ fuel') (a b : ℕ) :
    Persists (g.eqv fuel room a b) (g.eqv fuel' room' a b) := by
  unfold eqv
  cases g.eqvLeaf a b with
  | no => exact .refl _
  | yes => exact .refl _
  | _ => exact eqvAt_persists (by omega) (by omega) hfuel (Nat.zero_le _)

theorem eql_persists (hroom : room ≤ room') (hfuel : fuel ≤ fuel') (a b : ℕ) :
    Persists (g.eql fuel room a b) (g.eql fuel' room' a b) := by
  unfold eql
  apply Persists.ite
  · exact fun _ => .refl _
  · exact fun _ => Persists.ite (fun _ => .refl _) fun _ => eqv_persists hroom hfuel a b

end Core

namespace KindCore

variable {g : KindCore}

/-! ## The registry -/

theorem mapProbeFrom_persists (hroom : room ≤ room') (hfuel : fuel ≤ fuel') {m k n i : ℕ} :
    Persists (g.mapProbeFrom fuel room m k n i) (g.mapProbeFrom fuel' room' m k n i) := by
  induction n generalizing i with
  | zero => exact .refl _
  | succ n ih =>
      unfold mapProbeFrom
      apply Persists.ite
      · exact fun _ => .refl _
      · intro _
        apply Persists.bind (Core.eql_persists hroom hfuel _ _)
        intro found _
        exact Persists.ite (fun _ => .refl _) fun _ => ih

theorem mapget_persists (hroom : room ≤ room') (hfuel : fuel ≤ fuel') (dflt k m : ℕ) :
    Persists (g.mapget fuel room dflt k m) (g.mapget fuel' room' dflt k m) := by
  unfold mapget
  refine Persists.bind (Core.hash_persists hroom hfuel k) fun h _ => ?_
  refine Persists.bind (mapProbeFrom_persists hroom hfuel) fun i _ => ?_
  exact .refl _

theorem kindSerial_persists (hroom : room ≤ room') (hfuel : fuel ≤ fuel') (x : ℕ) :
    Persists (g.kindSerial fuel room x) (g.kindSerial fuel' room' x) := by
  unfold kindSerial
  apply Persists.bind
  · unfold kindName
    exact Persists.ite (fun _ => mapget_persists hroom hfuel _ _ _) fun _ => .refl _
  · intro name _
    exact Persists.bind (mapget_persists hroom hfuel _ _ _) fun e _ => .refl _

/-! ## The order -/

theorem cmpHash_persists (hroom : room ≤ room') (hfuel : fuel ≤ fuel') (a b : ℕ) :
    Persists (g.cmpHash fuel room a b) (g.cmpHash fuel' room' a b) := by
  unfold cmpHash
  refine Persists.bind (Core.hash_persists hroom hfuel a) fun ha _ => ?_
  exact Persists.bind (Core.hash_persists hroom hfuel b) fun hb _ => .refl _

theorem cmpKinds_persists (hroom : room ≤ room') (hfuel : fuel ≤ fuel') (a b : ℕ) :
    Persists (g.cmpKinds fuel room a b) (g.cmpKinds fuel' room' a b) := by
  unfold cmpKinds
  refine Persists.bind (kindSerial_persists hroom hfuel a) fun sa _ => ?_
  refine Persists.bind (kindSerial_persists hroom hfuel b) fun sb _ => ?_
  exact Persists.ite (fun _ => .refl _) fun _ => cmpHash_persists hroom hfuel a b

theorem cmp3leaf_persists (hroom : room ≤ room') (hfuel : fuel ≤ fuel') (a b : ℕ) :
    Persists (g.cmp3leaf fuel room a b) (g.cmp3leaf fuel' room' a b) := by
  unfold cmp3leaf
  refine Persists.ite (fun _ => .refl _) fun _ => ?_
  refine Persists.ite (fun _ => .refl _) fun _ => ?_
  refine Persists.ite (fun _ => .refl _) fun _ => ?_
  refine Persists.ite (fun _ => .refl _) fun _ => ?_
  refine Persists.ite (fun _ => .refl _) fun _ => ?_
  apply Persists.ite
  · exact fun _ => Persists.ite (fun _ => .refl _) fun _ => cmpKinds_persists hroom hfuel a b
  · exact fun _ => Persists.ite (fun _ => .refl _) fun _ => cmpHash_persists hroom hfuel a b

theorem cmp3w_persists (hroom : room ≤ room') (hfuel : fuel ≤ fuel') {n n' : ℕ} (hn : n ≤ n')
    {a b : ℕ} {w : List (ℕ × ℕ)} :
    Persists (g.cmp3w fuel room n a b w) (g.cmp3w fuel' room' n' a b w) := by
  induction n generalizing n' a b w with
  | zero => exact .error _ _
  | succ n ih =>
      obtain ⟨n', rfl⟩ : ∃ m, n' = m + 1 := ⟨n' - 1, by omega⟩
      unfold cmp3w
      apply Persists.bind (cmp3leaf_persists (by omega) hfuel a b)
      intro step _
      cases step with
      | coin => exact ih (by omega)
      | chain => exact Persists.guarded (by omega) fun _ _ => ih (by omega)
      | settled c =>
          apply Persists.ite
          · exact fun _ => .refl _
          · intro _
            cases w with
            | nil => exact .refl _
            | cons p w => exact ih (by omega)

theorem cmp3_persists (hroom : room ≤ room') (hfuel : fuel ≤ fuel') (a b : ℕ) :
    Persists (g.cmp3 fuel room a b) (g.cmp3 fuel' room' a b) :=
  cmp3w_persists hroom hfuel hfuel

end KindCore

end LoveRuntime
