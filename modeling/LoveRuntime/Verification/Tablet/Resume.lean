import LoveRuntime.Verification.Tablet.Interrupt

/-! # Operations run again

What a walk tells does not depend on the room it had, so an operation that runs again comes to what it
would have come to at once. -/

namespace LoveRuntime

open Probing

variable {K V α : Type} {w : Walks K} {t : Tablet K V}

/-! ## Rooms do not matter -/

/-- Two attempts that have their answer have the same one. -/
def Coincide {β : Type} (x y : Except Halt β) : Prop := ∀ a b, x = .ok a → y = .ok b → a = b

theorem Coincide.bind {α β : Type} {x y : Except Halt α} {f g : α → Except Halt β} (h : Coincide x y)
    (hf : ∀ a, x = .ok a → Coincide (f a) (g a)) : Coincide (x >>= f) (y >>= g) := by
  intro b b' hx hy
  cases x with
  | error e => cases hx
  | ok a =>
      cases y with
      | error e => cases hy
      | ok a' =>
          obtain rfl := h a a' rfl rfl
          exact hf a rfl b b' hx hy

theorem Coincide.refl {β : Type} (x : Except Halt β) : Coincide x x := by
  intro a b ha hb
  exact Except.ok.inj (ha.symm.trans hb)

theorem hashIn_coincide (r r' : ℕ) (k : K) : Coincide (w.hashIn r k) (w.hashIn r' k) := by
  intro a b ha hb
  unfold Walks.hashIn at ha hb
  split_ifs at ha hb
  exact (Except.ok.inj ha).symm.trans (Except.ok.inj hb)

theorem mapProbeFrom_coincide (r r' : ℕ) (k : K) (fuel i : ℕ) :
    Coincide (mapProbeFrom w r t k fuel i) (mapProbeFrom w r' t k fuel i) := by
  induction fuel generalizing i with
  | zero => exact Coincide.refl _
  | succ fuel ih =>
      rw [mapProbeFrom, mapProbeFrom]
      cases t.slots i with
      | none => exact Coincide.refl _
      | some e =>
          intro a b ha hb
          simp only at ha hb
          split_ifs at ha hb
          · exact Except.ok.inj (ha.symm.trans hb)
          · exact ih _ a b ha hb

theorem mapProbe_coincide (r r' : ℕ) (k : K) : Coincide (mapProbe w r t k) (mapProbe w r' t k) :=
  (hashIn_coincide r r' k).bind fun _ _ => mapProbeFrom_coincide r r' k _ _

theorem mapget_coincide (r r' : ℕ) (dflt : V) (k : K) :
    Coincide (mapget w r t dflt k) (mapget w r' t dflt k) :=
  (mapProbe_coincide r r' k).bind fun _ _ => Coincide.refl _

theorem reinsert_coincide (r r' : ℕ) (nb : Tablet K V) (j : ℕ) :
    Coincide (reinsert w r t nb j) (reinsert w r' t nb j) := by
  rw [reinsert, reinsert]
  cases t.slots j with
  | none => exact Coincide.refl _
  | some e => exact (hashIn_coincide r r' e.1).bind fun _ _ => Coincide.refl _

theorem mapGrow_coincide (r r' : Option ℕ) : Coincide (mapGrow w r t) (mapGrow w r' t) := by
  cases r with
  | none => exact nofun
  | some r =>
      cases r' with
      | none => exact fun _ _ _ => nofun
      | some r' =>
          simp only [mapGrow]
          generalize mapFillBack (2 * t.cap) = nb
          generalize List.range t.cap = js
          induction js generalizing nb with
          | nil => exact Coincide.refl _
          | cons j js ih =>
              rw [List.foldlM_cons, List.foldlM_cons]
              exact (reinsert_coincide r r' nb j).bind fun nb' _ => ih nb'

theorem mapdelHashes_coincide (r r' fuel j : ℕ) :
    Coincide (mapdelHashes w r t fuel j) (mapdelHashes w r' t fuel j) := fun _ _ _ _ => rfl

theorem mapdel_coincide (r r' : ℕ) (k : K) : Coincide (mapdel w r t k) (mapdel w r' t k) := by
  refine (mapProbe_coincide r r' k).bind fun p _ => ?_
  obtain ⟨found, i⟩ := p
  cases found with
  | false => exact Coincide.refl _
  | true => exact (mapdelHashes_coincide r r' _ _).bind fun _ _ => Coincide.refl _

/-! ## Running again -/

/-- How a put comes to its answer. -/
inductive PutDone (w : Walks K) (k : K) (v : V) (r : Room) (t : Tablet K V) : Tablet K V → Prop where
  | found {i : ℕ} (hp : mapProbe w r.free t k = .ok (true, i)) :
      PutDone w k v r t (match t.slots i with
        | none => t
        | some (sk, _) => t.write i sk v)
  | fits {i : ℕ} (hp : mapProbe w r.free t k = .ok (false, i)) (hload : (t.len + 1) * 4 < t.cap * 3) :
      PutDone w k v r t (t.occupy i k v)
  | grown {i i' : ℕ} {found : Bool} {t' : Tablet K V} (hp : mapProbe w r.free t k = .ok (false, i))
      (hload : ¬ (t.len + 1) * 4 < t.cap * 3) (hg : mapGrow w r.grown t = .ok t')
      (hp' : mapProbe w (r.grown.getD 0) t' k = .ok (found, i')) :
      PutDone w k v r t (t'.occupy i' k v)

/-- What a put that is to run again leaves: the tablet as it was, or grown. -/
inductive PutSpent (w : Walks K) (k : K) (r : Room) (t : Tablet K V) : Tablet K V → Prop where
  | same : PutSpent w k r t t
  | grown {i : ℕ} {t' : Tablet K V} (hp : mapProbe w r.free t k = .ok (false, i))
      (hload : ¬ (t.len + 1) * 4 < t.cap * 3) (hg : mapGrow w r.grown t = .ok t') :
      PutSpent w k r t t'

theorem PutDone.unique {k : K} {v : V} {r r' : Room} {u u' : Tablet K V} (h : PutDone w k v r t u)
    (h' : PutDone w k v r' t u') : u = u' := by
  cases h with
  | found hp =>
      cases h' with
      | found hp' => cases mapProbe_coincide _ _ k _ _ hp hp'; rfl
      | fits hp' _ => cases mapProbe_coincide _ _ k _ _ hp hp'
      | grown hp' _ _ _ => cases mapProbe_coincide _ _ k _ _ hp hp'
  | fits hp hload =>
      cases h' with
      | found hp' => cases mapProbe_coincide _ _ k _ _ hp hp'
      | fits hp' _ => cases mapProbe_coincide _ _ k _ _ hp hp'; rfl
      | grown _ hload' _ _ => exact absurd hload hload'
  | grown hp hload hg hq =>
      cases h' with
      | found hp' => cases mapProbe_coincide _ _ k _ _ hp hp'
      | fits _ hload' => exact absurd hload' hload
      | grown hp' _ hg' hq' =>
          obtain rfl := mapGrow_coincide _ _ _ _ hg hg'
          cases mapProbe_coincide _ _ k _ _ hq hq'
          rfl

theorem exists_ample (w : Walks K) (l : List (K × V)) (k : K) : ∃ n, Ample w l k n := by
  induction l with
  | nil => exact ⟨w.hashNeed k, le_rfl, nofun, nofun⟩
  | cons e l ih =>
      obtain ⟨n, hkey, hhash, hcmp⟩ := ih
      refine ⟨n + w.hashNeed e.1 + w.eqlNeed k e.1, by omega, fun e' he' => ?_, fun e' he' => ?_⟩
      · obtain rfl | he' := List.mem_cons.mp he'
        · omega
        · have := hhash e' he'
          omega
      · obtain rfl | he' := List.mem_cons.mp he'
        · omega
        · have := hcmp e' he'
          omega

theorem Probed.of_ample {k : K} {room : ℕ} {x : Except Halt (Bool × ℕ)} (h : Probed w t room k x)
    (ha : Ample w t.entries k room) : ∃ p, x = .ok p := by
  cases h with
  | found => exact ⟨_, rfl⟩
  | gap => exact ⟨_, rfl⟩
  | torn hshort => exact absurd ha hshort

/-- What a put does after a growth that was torn off, it does after its own. -/
theorem PutSpent.resume (hw : w.Lawful) (inv : TabletInv w t) {k : K} {v : V} {r r' : Room}
    {t' u : Tablet K V} (hs : PutSpent w k r t t') (hd : PutDone w k v r' t' u) :
    ∃ r, PutDone w k v r t u := by
  cases hs with
  | same => exact ⟨r', hd⟩
  | @grown i _ hp hload hg =>
      obtain ⟨n, hn⟩ := exists_ample w t.entries k
      obtain ⟨p, hpn⟩ := (mapProbe_probed hw inv n k).of_ample hn
      have hfalse : p = (false, i) := mapProbe_coincide _ _ k _ _ hpn hp
      subst hfalse
      have habsent : ∀ e ∈ t.entries, w.eql k e.1 = false := by
        have h := mapProbe_probed hw inv n k
        rw [hpn] at h
        cases h with
        | gap _ _ _ habsent => exact habsent
      have hgrow := mapGrow_attempt hw inv n
      cases hgn : mapGrow w (some n) t with
      | error e =>
          rw [hgn] at hgrow
          cases hgrow with
          | torn hshort => exact absurd hn.hashes hshort
      | ok t'' =>
          obtain rfl := mapGrow_coincide _ _ _ _ hgn hg
          rw [hgn] at hgrow
          cases hgrow with
          | answer hgrow =>
              obtain ⟨inv', hcap, hcontent⟩ := hgrow
              have hfits : (t''.len + 1) * 4 < t''.cap * 3 := by
                have hlen : t''.len = t.len := by rw [inv'.len_eq, inv.len_eq, hcontent.length_eq]
                have hload := inv.load
                have hpos := Tablet.cap_pos inv.power
                rcases (show t.cap = 1 ∨ 2 ≤ t.cap by omega) with h | h <;> omega
              obtain ⟨q, hq⟩ := (mapProbe_probed hw inv' n k).of_ample (hn.perm hcontent.symm)
              refine ⟨⟨n, some n⟩, ?_⟩
              cases hd with
              | @found i' hp' =>
                  exfalso
                  have h := mapProbe_probed hw inv' r'.free k
                  rw [hp'] at h
                  cases h with
                  | found hi he heql =>
                      have hmem := hcontent.mem_iff.mp (Tablet.mem_entries.mpr ⟨_, hi, he⟩)
                      rw [habsent _ hmem] at heql
                      cases heql
              | fits hp' _ =>
                  obtain rfl := mapProbe_coincide _ _ k _ _ hq hp'
                  exact .grown (r := ⟨n, some n⟩) hpn hload hgn hq
              | grown _ hload' _ _ => exact absurd hfits hload'

/-- How an operation comes to its answer, in some room. -/
def AnswersIn (w : Walks K) (t : Tablet K V) (u : Tablet K V) : TabletOp K V → TabletAnswer K V → Prop
  | .put k v, a => (∃ r, PutDone w k v r t u) ∧ a = .done
  | .pull k dflt, a => ∃ r v out, mapget w r t dflt k = .ok v ∧ mapdel w r t k = .ok out ∧
      u = out.getD t ∧ a = .value v
  | .get k dflt, a => u = t ∧ ∃ r v, mapget w r t dflt k = .ok v ∧ a = .value v
  | .keys, a => u = t ∧ a = .list (Loop.downto t.cap (consKey t) [])
  | .grow, a => (∃ r, mapGrow w r t = .ok u) ∧ a = .done

theorem AnswersIn.unique {op : TabletOp K V} {u u' : Tablet K V} {a a' : TabletAnswer K V}
    (h : AnswersIn w t u op a) (h' : AnswersIn w t u' op a') : u = u' ∧ a = a' := by
  cases op with
  | put k v =>
      obtain ⟨⟨r, h⟩, rfl⟩ := h
      obtain ⟨⟨r', h'⟩, rfl⟩ := h'
      exact ⟨h.unique h', rfl⟩
  | pull k dflt =>
      obtain ⟨r, v, out, hget, hdel, rfl, rfl⟩ := h
      obtain ⟨r', v', out', hget', hdel', rfl, rfl⟩ := h'
      obtain rfl := mapget_coincide _ _ _ _ _ _ hget hget'
      obtain rfl := mapdel_coincide _ _ _ _ _ hdel hdel'
      exact ⟨rfl, rfl⟩
  | get k dflt =>
      obtain ⟨rfl, r, v, hget, rfl⟩ := h
      obtain ⟨rfl, r', v', hget', rfl⟩ := h'
      obtain rfl := mapget_coincide _ _ _ _ _ _ hget hget'
      exact ⟨rfl, rfl⟩
  | keys =>
      obtain ⟨rfl, rfl⟩ := h
      obtain ⟨rfl, rfl⟩ := h'
      exact ⟨rfl, rfl⟩
  | grow =>
      obtain ⟨⟨r, h⟩, rfl⟩ := h
      obtain ⟨⟨r', h'⟩, rfl⟩ := h'
      exact ⟨mapGrow_coincide _ _ _ _ h h', rfl⟩

end LoveRuntime
