import LoveRuntime.Verification.Symbols.Intern
import Mathlib.Tactic.Ring

/-! Collections: what a pass leaves at an object's forward, and the intern map after it. -/

namespace LoveRuntime.Symbols

open Probing

variable {r : Arch} {c : Core} {p : Pass} {inFrom : ℕ → Bool} {roots held : List ℕ} {t : Tablet ℕ ℕ} {a b : ℕ}

/-! ## A pass -/

/-- The pass has a place for `a`: its copy, or where it is. -/
def Stays (p : Pass) (inFrom : ℕ → Bool) (a : ℕ) : Prop := inFrom a = true → (p.fwd a).isSome = true

/-- No object out of the pass's reach points into the space it empties. -/
def Closed (c : Core) (inFrom : ℕ → Bool) : Prop :=
  ∀ a, inFrom a = false → a ∉ c.rem → ∀ f ∈ (c.obj a).fields, inFrom f = false

theorem gcp_of_fwd (h : p.fwd a = some b) : p.gcp a = b := by
  rw [Pass.gcp, h, Option.getD_some]

/-- What stands at `b` after the pass. -/
inductive Standing (c : Core) (p : Pass) (inFrom : ℕ → Bool) (b : ℕ) : Obj → Prop where
  | copy {a : ℕ} (h : p.fwd a = some b) : Standing c p inFrom b ((c.obj a).map p.gcp)
  | gone (hcopy : ∀ a, p.fwd a ≠ some b) (h : inFrom b = true) : Standing c p inFrom b .dead
  | scanned (hcopy : ∀ a, p.fwd a ≠ some b) (h : inFrom b = false) (hrem : b ∈ c.rem) :
      Standing c p inFrom b ((c.obj b).map p.gcp)
  | left (hcopy : ∀ a, p.fwd a ≠ some b) (h : inFrom b = false) (hrem : b ∉ c.rem) :
      Standing c p inFrom b (c.obj b)

namespace Traces

variable (h : Traces c p inFrom roots)
include h

theorem standing (b : ℕ) : Standing c p inFrom b (c.moved p inFrom b) := by
  rw [Core.moved]
  cases hfind : (List.range c.hp).find? fun a => p.fwd a == some b with
  | some a =>
      have ha := List.find?_some hfind
      exact .copy (beq_iff_eq.mp ha)
  | none =>
      have hcopy : ∀ a, p.fwd a ≠ some b := by
        intro a ha
        have hno := List.find?_eq_none.mp hfind a (List.mem_range.mpr (h.source a b ha).2)
        exact hno (beq_iff_eq.mpr ha)
      dsimp only
      split_ifs with hfrom hrem
      · exact .gone hcopy hfrom
      · exact .scanned hcopy (Bool.eq_false_of_not_eq_true hfrom) hrem
      · exact .left hcopy (Bool.eq_false_of_not_eq_true hfrom) hrem

theorem gcp_of_out (hout : inFrom a = false) : p.gcp a = a := by
  cases hfwd : p.fwd a with
  | none => rw [Pass.gcp, hfwd, Option.getD_none]
  | some b =>
      have hin := (h.source a b hfwd).1
      rw [hout] at hin
      cases hin

theorem gcp_lt (ha : a < c.hp) : p.gcp a < p.hp := by
  cases hfwd : p.fwd a with
  | none =>
      rw [Pass.gcp, hfwd, Option.getD_none]
      exact Nat.lt_of_lt_of_le ha h.grows
  | some b =>
      rw [gcp_of_fwd hfwd]
      exact (h.fresh a b hfwd).2

theorem gcp_inj {a' : ℕ} (ha : a < c.hp) (ha' : a' < c.hp) (heq : p.gcp a = p.gcp a') : a = a' := by
  cases hfwd : p.fwd a with
  | none =>
      cases hfwd' : p.fwd a' with
      | none =>
          rw [Pass.gcp, Pass.gcp, hfwd, hfwd'] at heq
          exact heq
      | some b' =>
          rw [gcp_of_fwd hfwd', Pass.gcp, hfwd, Option.getD_none] at heq
          have hfresh := (h.fresh a' b' hfwd').1
          omega
  | some b =>
      cases hfwd' : p.fwd a' with
      | none =>
          rw [gcp_of_fwd hfwd, Pass.gcp, hfwd', Option.getD_none] at heq
          have hfresh := (h.fresh a b hfwd).1
          omega
      | some b' =>
          rw [gcp_of_fwd hfwd, gcp_of_fwd hfwd'] at heq
          exact h.apart a a' b hfwd (heq ▸ hfwd')

/-- The fields of what stays stay. -/
theorem stays_field (hclosed : Closed c inFrom) (ha : Stays p inFrom a) {f : ℕ} (hf : f ∈ (c.obj a).fields) :
    Stays p inFrom f := by
  intro hin
  by_cases hfrom : inFrom a = true
  · obtain ⟨b, hb⟩ := Option.isSome_iff_exists.mp (ha hfrom)
    exact h.copied a b hb f hf hin
  · have hout : inFrom a = false := Bool.eq_false_of_not_eq_true hfrom
    by_cases hrem : a ∈ c.rem
    · exact h.inPlace a hrem hout f hf hin
    · rw [hclosed a hout hrem f hf] at hin
      cases hin

/-- What stays is at its forward as it was, its fields forwarded. -/
theorem moved_gcp (hclosed : Closed c inFrom) (hlt : a < c.hp) (ha : Stays p inFrom a) :
    c.moved p inFrom (p.gcp a) = (c.obj a).map p.gcp := by
  by_cases hfrom : inFrom a = true
  · obtain ⟨b, hb⟩ := Option.isSome_iff_exists.mp (ha hfrom)
    rw [gcp_of_fwd hb]
    generalize hmoved : c.moved p inFrom b = o
    have hst : Standing c p inFrom b o := hmoved ▸ h.standing b
    cases hst with
    | @copy a' h' => rw [h.apart a' a b h' hb]
    | gone hcopy => exact absurd hb (hcopy a)
    | scanned hcopy => exact absurd hb (hcopy a)
    | left hcopy => exact absurd hb (hcopy a)
  · have hout : inFrom a = false := Bool.eq_false_of_not_eq_true hfrom
    rw [h.gcp_of_out hout]
    generalize hmoved : c.moved p inFrom a = o
    have hst : Standing c p inFrom a o := hmoved ▸ h.standing a
    cases hst with
    | @copy a' h' =>
        have hfresh := (h.fresh a' a h').1
        omega
    | gone _ hin => exact absurd hin hfrom
    | scanned => rfl
    | left _ _ hrem =>
        refine (map_of_fixed fun f hf => ?_).symm
        exact h.gcp_of_out (hclosed a hout hrem f hf)

theorem moved_fresh (hs : Sane c) (hb : p.hp ≤ b) : c.moved p inFrom b = .dead := by
  have hdead : c.obj b = .dead := hs.fresh b (Nat.le_trans h.grows hb)
  generalize hmoved : c.moved p inFrom b = o
  have hst : Standing c p inFrom b o := hmoved ▸ h.standing b
  cases hst with
  | copy h' =>
      have hlt := (h.fresh _ _ h').2
      omega
  | gone => rfl
  | scanned => rw [hdead, Obj.map]
  | left => exact hdead

theorem moved_within (hs : Sane c) {f : ℕ} (hf : f ∈ (c.moved p inFrom b).fields) : f < p.hp := by
  generalize hmoved : c.moved p inFrom b = o at hf
  have hst : Standing c p inFrom b o := hmoved ▸ h.standing b
  cases hst with
  | @copy a' =>
      obtain ⟨y, hy, rfl⟩ := mem_fields_map.mp hf
      exact h.gcp_lt (hs.within a' y hy)
  | gone => cases hf
  | scanned =>
      obtain ⟨y, hy, rfl⟩ := mem_fields_map.mp hf
      exact h.gcp_lt (hs.within b y hy)
  | left => exact Nat.lt_of_lt_of_le (hs.within b f hf) h.grows

end Traces

/-! ## Names after a pass -/

/-- The objects of a core, as the pass leaves them. -/
structure Passed (c : Core) (p : Pass) (inFrom : ℕ → Bool) (c' : Core) : Prop where
  closed : Closed c inFrom
  kept : ∀ a, c.obj a ≠ .dead → Stays p inFrom a → c'.obj (p.gcp a) = (c.obj a).map p.gcp

theorem Traces.passed {c' : Core} (hs : Sane c) (hclosed : Closed c inFrom) (h : Traces c p inFrom roots)
    (hobj : ∀ b < p.hp, c'.obj b = c.moved p inFrom b) : Passed c p inFrom c' where
  closed := hclosed
  kept a hlive ha := by
    rw [hobj _ (h.gcp_lt (hs.lt hlive))]
    exact h.moved_gcp hclosed (hs.lt hlive) ha

namespace Passed

variable {c' : Core} (h : Passed c p inFrom c')
include h

theorem str {bytes : List UInt8} (hstr : c.obj a = .str bytes) (ha : Stays p inFrom a) :
    c'.obj (p.gcp a) = .str bytes := by
  rw [h.kept a (by rw [hstr]; exact nofun) ha, hstr, Obj.map]

theorem nom {name dig : ℕ} (hnom : c.obj a = .nom name dig) (ha : Stays p inFrom a) :
    c'.obj (p.gcp a) = .nom (p.gcp name) dig := by
  rw [h.kept a (by rw [hnom]; exact nofun) ha, hnom, Obj.map]

theorem text {bytes : List UInt8} (hstr : c.obj a = .str bytes) (ha : Stays p inFrom a) :
    c'.text (p.gcp a) = c.text a := by
  simp only [Core.text, h.str hstr ha, hstr]

theorem spelling (htr : Traces c p inFrom roots) (hn : Names r c held t) {e : ℕ × ℕ} (he : e ∈ t.entries)
    (hval : Stays p inFrom e.2) : c'.spelling (p.gcp e.2) = c.spelling e.2 := by
  have hnom := hn.noms e he
  obtain ⟨bytes, -, hstr⟩ := hn.keys e he
  have hkey : Stays p inFrom e.1 :=
    htr.stays_field h.closed hval (by rw [hnom]; exact List.mem_singleton_self _)
  rw [hn.spelling he, Core.spelling, h.nom hnom hval]
  exact h.text hstr hkey

end Passed

/-! ## A minor -/

theorem closed_young (hs : Sane c) (hmiss : c.miss = false) : Closed c c.young := hs.barrier hmiss

theorem Sane.minor (hs : Sane c) (h : Traces c p c.young roots) (hrem : Remembers c p) :
    Sane (c.genMinor p) := by
  refine ⟨fun a ha => h.moved_fresh hs ha, fun a f hf => h.moved_within hs hf, ?_⟩
  intro hmiss' b hyoung hnot f hf
  have hmiss' : p.miss = false := hmiss'
  have hyoung : p.young b = false := hyoung
  have hnot : b ∉ p.rem := hnot
  by_contra hne
  have hfy : p.young f = true := Bool.eq_true_of_not_eq_false hne
  have hf : f ∈ (c.moved p c.young b).fields := hf
  generalize hmoved : c.moved p c.young b = o at hf
  have hst : Standing c p c.young b o := hmoved ▸ h.standing b
  cases hst with
  | @copy a ha =>
      obtain ⟨y, hy, rfl⟩ := mem_fields_map.mp hf
      rcases hrem.copied a b ha hyoung y hy hfy with hmem | hover
      · exact hnot hmem
      · rw [hmiss'] at hover
        cases hover
  | gone => cases hf
  | scanned _ hold hmem =>
      obtain ⟨y, hy, rfl⟩ := mem_fields_map.mp hf
      rcases hrem.inPlace b hmem hold y hy hfy with hmem' | hover
      · exact hnot hmem'
      · rw [hmiss'] at hover
        cases hover
  | left =>
      obtain ⟨a, ha⟩ := hrem.young f hfy
      have hfresh := (h.fresh a f ha).1
      have hlt := hs.within b f hf
      omega

/-- A minor forwards the map's header, its backing and every slot. -/
theorem Mapped.minor (hs : Sane c) (hmiss : c.miss = false) (hm : Mapped r c held b t)
    (h : Traces c p c.young (c.symbols :: held)) :
    Mapped r (c.genMinor p) (held.map p.gcp) (p.gcp b) (mapSlots p.gcp t) := by
  have hpass : Passed c p c.young (c.genMinor p) := h.passed hs (closed_young hs hmiss) fun _ _ => rfl
  have hsym : Stays p c.young c.symbols := h.roots c.symbols List.mem_cons_self
  have hback : Stays p c.young b :=
    h.stays_field hpass.closed hsym (by rw [hm.head]; exact List.mem_singleton_self b)
  have hentry : ∀ e ∈ t.entries, Stays p c.young e.1 ∧ Stays p c.young e.2 := by
    intro e he
    constructor
    · exact h.stays_field hpass.closed hback (by rw [hm.back]; exact mem_fields_back.mpr ⟨e, he, .inl rfl⟩)
    · exact h.stays_field hpass.closed hback (by rw [hm.back]; exact mem_fields_back.mpr ⟨e, he, .inr rfl⟩)
  have htext : ∀ e ∈ t.entries, (c.genMinor p).text (p.gcp e.1) = c.text e.1 := by
    intro e he
    obtain ⟨bytes, -, hstr⟩ := hm.names.keys e he
    exact hpass.text hstr (hentry e he).1
  refine ⟨?_, ?_, ?_, ?_, ?_, ?_⟩
  · have hhead := hpass.kept c.symbols (by rw [hm.head]; exact nofun) hsym
    rwa [hm.head] at hhead
  · have hobj := hpass.kept b (by rw [hm.back]; exact nofun) hback
    rwa [hm.back] at hobj
  · refine mapSlots_inv hm.names.inv (fun e he => congrArg _ (htext e he)) fun e he e' he' => ?_
    rw [Core.walks, Core.walks]
    dsimp only
    rw [htext e he, htext e' he']
  · intro e' he'
    rw [mapSlots_entries] at he'
    obtain ⟨e, he, rfl⟩ := List.mem_map.mp he'
    rw [htext e he]
    exact hpass.nom (hm.names.noms e he) (hentry e he).2
  · intro e' he'
    rw [mapSlots_entries] at he'
    obtain ⟨e, he, rfl⟩ := List.mem_map.mp he'
    obtain ⟨bytes, hne, hstr⟩ := hm.names.keys e he
    exact ⟨bytes, hne, hpass.str hstr (hentry e he).1⟩
  · intro a' ha'
    obtain ⟨a, ha, rfl⟩ := List.mem_map.mp ha'
    obtain ⟨e, he, rfl⟩ := hm.names.reached a ha
    exact ⟨_, by rw [mapSlots_entries]; exact List.mem_map_of_mem he, rfl⟩

end LoveRuntime.Symbols

/-! `major_symbols_rebuild`: the map of the noms that survived, below its load. -/

namespace LoveRuntime.Symbols

open Probing

variable {r : Arch} {c : Core} {p : Pass} {roots held : List ℕ} {t nb : Tablet ℕ ℕ} {b : ℕ}

theorem rebuildCap_fits {n fuel cap : ℕ} (hpow : ∃ e, cap = 2 ^ e) (hfuel : (n + 1) * 4 < cap * 3 * 2 ^ fuel) :
    (∃ e, Core.rebuildCap n fuel cap = 2 ^ e) ∧ (n + 1) * 4 < Core.rebuildCap n fuel cap * 3 := by
  induction fuel generalizing cap with
  | zero => exact ⟨hpow, by simpa [Core.rebuildCap] using hfuel⟩
  | succ fuel ih =>
      rw [Core.rebuildCap]
      split_ifs with hload
      · obtain ⟨e, he⟩ := hpow
        refine ih ⟨e + 1, by rw [he, pow_succ]⟩ ?_
        calc (n + 1) * 4 < cap * 3 * 2 ^ (fuel + 1) := hfuel
          _ = cap * 2 * 3 * 2 ^ fuel := by ring
      · exact ⟨hpow, Nat.lt_of_not_le hload⟩

theorem rebuildCap_start (n : ℕ) :
    (∃ e, Core.rebuildCap n (n + 1) mapMinCap = 2 ^ e) ∧ (n + 1) * 4 < Core.rebuildCap n (n + 1) mapMinCap * 3 := by
  refine rebuildCap_fits ⟨2, rfl⟩ ?_
  have hlt : n + 1 < 2 ^ (n + 1) := Nat.lt_two_pow_self
  rw [mapMinCap]
  omega

/-- The entry a slot of the old map becomes. -/
def survivor (p : Pass) (e : ℕ × ℕ) : Option (ℕ × ℕ) := (Core.symSurvived p e).map fun fwd => (p.gcp e.1, fwd)

/-- The survivors among the first `j` slots. -/
def survivors (p : Pass) (t : Tablet ℕ ℕ) (j : ℕ) : List (ℕ × ℕ) :=
  (List.range j).filterMap fun i => (t.slots i).bind (survivor p)

theorem survivors_cap (p : Pass) (t : Tablet ℕ ℕ) : survivors p t t.cap = t.entries.filterMap (survivor p) := by
  rw [Tablet.entries, Probing.entries, List.filterMap_filterMap]
  rfl

theorem survivors_succ (p : Pass) (t : Tablet ℕ ℕ) (j : ℕ) :
    survivors p t (j + 1) = survivors p t j ++ ((t.slots j).bind (survivor p)).toList := by
  rw [survivors, List.range_succ, List.filterMap_append, List.filterMap_cons]
  cases (t.slots j).bind (survivor p) <;> rfl

theorem survivors_sublist (p : Pass) (t : Tablet ℕ ℕ) {j : ℕ} (hj : j ≤ t.cap) :
    (survivors p t j).Sublist (survivors p t t.cap) :=
  (List.range_sublist.mpr hj).filterMap _

theorem survivor_eq {e e' : ℕ × ℕ} (h : survivor p e = some e') :
    e' = (p.gcp e.1, p.gcp e.2) ∧ p.fwd e.2 = some e'.2 := by
  obtain ⟨fwd, hfwd, rfl⟩ := Option.map_eq_some_iff.mp h
  exact ⟨by rw [gcp_of_fwd hfwd], hfwd⟩

/-- The count that sizes the map. -/
theorem countP_survived (p : Pass) (t : Tablet ℕ ℕ) :
    ((List.range t.cap).countP fun j => ((t.slots j).bind (Core.symSurvived p)).isSome) =
      (survivors p t t.cap).length := by
  have hbind : ∀ j, (t.slots j).bind (survivor p) =
      ((t.slots j).bind fun e => (Core.symSurvived p e).map fun fwd => (p.gcp e.1, fwd)) := fun _ => rfl
  rw [survivors, List.length_filterMap_eq_countP]
  refine List.countP_congr fun j _ => ?_
  rw [hbind]
  cases t.slots j with
  | none => simp
  | some e => simp

/-! ## The survivors in their place -/

section Placed

variable {c' : Core} (htr : Traces c p (fun _ => true) roots) (hpass : Passed c p (fun _ => true) c')
  (hn : Names r c held t)
include htr hpass hn

/-- A nom that survived, and its name with it. -/
theorem survivor_placed {e e' : ℕ × ℕ} (he : e ∈ t.entries) (hs : survivor p e = some e') :
    c'.obj e'.2 = .nom e'.1 (Core.textDig r (c'.text e'.1)) ∧ c'.text e'.1 = c.text e.1 ∧
      ∃ bytes, bytes ≠ [] ∧ c'.obj e'.1 = .str bytes := by
  obtain ⟨heq, hfwd⟩ := survivor_eq hs
  have hval : Stays p (fun _ => true) e.2 := fun _ => by rw [hfwd]; rfl
  have hnom := hn.noms e he
  obtain ⟨bytes, hne, hstr⟩ := hn.keys e he
  have hkey : Stays p (fun _ => true) e.1 :=
    htr.stays_field hpass.closed hval (by rw [hnom]; exact List.mem_singleton_self _)
  have htext := hpass.text hstr hkey
  subst heq
  refine ⟨?_, htext, bytes, hne, hpass.str hstr hkey⟩
  rw [htext]
  exact hpass.nom hnom hval

theorem survivors_distinct : Distinct (c'.walks r) (survivors p t t.cap) := by
  rw [survivors_cap, Distinct, List.pairwise_filterMap]
  refine hn.inv.distinct.imp_of_mem fun {e₁ e₂} he₁ he₂ hne e₁' h₁ e₂' h₂ => ?_
  rw [← hne, Core.walks, Core.walks]
  dsimp only
  rw [(survivor_placed htr hpass hn he₁ h₁).2.1, (survivor_placed htr hpass hn he₂ h₂).2.1]

/-- The new map after the first `j` slots of the old one. -/
structure Rebuilt (r : Arch) (c' : Core) (p : Pass) (t : Tablet ℕ ℕ) (cap : ℕ) (nb : Tablet ℕ ℕ) (j : ℕ) : Prop where
  inv : TabletInv (c'.walks r) nb
  cap_eq : nb.cap = cap
  content : nb.entries.Perm (survivors p t j)

theorem rebuildSlot_rebuilt {cap j : ℕ} (hcap : ((survivors p t t.cap).length + 1) * 4 < cap * 3) (hj : j < t.cap)
    (h : Rebuilt r c' p t cap nb j) :
    ∃ nb', Core.rebuildSlot p c'.obj t nb j = .ok nb' ∧ Rebuilt r c' p t cap nb' (j + 1) := by
  have hsucc := survivors_succ p t j
  rw [Core.rebuildSlot]
  cases hs : t.slots j with
  | none =>
      rw [hs] at hsucc
      exact ⟨nb, rfl, h.inv, h.cap_eq, by rw [hsucc]; simpa using h.content⟩
  | some e =>
      rw [hs, Option.bind_some] at hsucc
      rw [Option.bind_some]
      have hbind : survivor p e = (Core.symSurvived p e).map fun fwd => (p.gcp e.1, fwd) := rfl
      have he : e ∈ t.entries := Tablet.mem_entries.mpr ⟨j, hj, hs⟩
      cases hfwd : Core.symSurvived p e with
      | none =>
          rw [hfwd, Option.map_none] at hbind
          rw [hbind] at hsucc
          exact ⟨nb, rfl, h.inv, h.cap_eq, by rw [hsucc]; simpa using h.content⟩
      | some fwd =>
          rw [hfwd, Option.map_some] at hbind
          obtain ⟨hnom, -, -⟩ := survivor_placed htr hpass hn he hbind
          rw [hbind] at hsucc
          obtain ⟨g, hg, hgap⟩ := h.inv.exists_gap
          have hideal := Tablet.ideal_lt h.inv.power (c'.walks r) (p.gcp e.1)
          obtain ⟨i, hi, hilt, higap, hclear⟩ := toGap_clear h.inv.power hideal hg hgap hideal
            (Probing.clear_self _ _) (Probing.ahead_lt hg)
          have hto : toGap nb nb.cap (Core.textDig r (c'.text (p.gcp e.1)) &&& nb.mask) = .ok i := hi
          have hentries := Tablet.occupy_entries (k := p.gcp e.1) (v := fwd) hilt higap
          have hcontent : (nb.occupy i (p.gcp e.1) fwd).entries.Perm (survivors p t (j + 1)) := by
            rw [hsucc]
            exact hentries.trans ((h.content.cons _).trans (List.perm_append_singleton _ _).symm)
          have hsub := survivors_sublist p t (Nat.succ_le_of_lt hj)
          have hnew : Distinct (c'.walks r) (survivors p t (j + 1)) :=
            (survivors_distinct htr hpass hn).sublist hsub
          have hcons : Distinct (c'.walks r) ((p.gcp e.1, fwd) :: nb.entries) :=
            (hnew.perm (walks_lawful r c') hcontent.symm).perm (walks_lawful r c') hentries
          have hload : (nb.len + 1) * 4 < nb.cap * 3 := by
            have hle := hsub.length_le
            have hlen := h.content.length_eq
            rw [← h.inv.len_eq] at hlen
            rw [hsucc, List.length_append] at hle
            rw [h.cap_eq]
            have hone : (some (p.gcp e.1, fwd)).toList.length = 1 := rfl
            omega
          dsimp only
          rw [hnom]
          dsimp only [bind, Except.bind]
          rw [hto]
          exact ⟨_, rfl, h.inv.occupy (walks_lawful r c') hilt higap hclear (List.pairwise_cons.mp hcons).1 hload,
            h.cap_eq, hcontent⟩

theorem majorSymbolsRebuild_rebuilt :
    ∃ nb, Core.majorSymbolsRebuild p c'.obj t = .ok nb ∧ TabletInv (c'.walks r) nb ∧
      nb.entries.Perm (t.entries.filterMap (survivor p)) ∧ (nb.len + 1) * 4 < nb.cap * 3 := by
  rw [Core.majorSymbolsRebuild, countP_survived]
  generalize hlen : (survivors p t t.cap).length = n
  obtain ⟨hpow, hcap⟩ := rebuildCap_start n
  generalize Core.rebuildCap n (n + 1) mapMinCap = cap at hpow hcap
  have hloop : ∀ j ≤ t.cap, ∃ nb, (List.range j).foldlM (Core.rebuildSlot p c'.obj t) (mapFillBack cap) = .ok nb ∧
      Rebuilt r c' p t cap nb j := by
    intro j
    induction j with
    | zero =>
        intro _
        refine ⟨_, rfl, mapFillBack_inv hpow, rfl, ?_⟩
        rw [mapFillBack_entries, survivors]
        simp
    | succ j ih =>
        intro hj
        obtain ⟨nb, hnb, hreb⟩ := ih (Nat.le_of_succ_le hj)
        obtain ⟨nb', hnb', hreb'⟩ := rebuildSlot_rebuilt htr hpass hn (by rw [hlen]; exact hcap) hj hreb
        refine ⟨nb', ?_, hreb'⟩
        rw [List.range_succ, List.foldlM_append, hnb]
        simp only [List.foldlM_cons, List.foldlM_nil, bind, Except.bind, hnb']
        rfl
  obtain ⟨nb, hnb, hreb⟩ := hloop t.cap le_rfl
  refine ⟨nb, hnb, hreb.inv, ?_, ?_⟩
  · rw [← survivors_cap]
    exact hreb.content
  · rw [hreb.inv.len_eq, hreb.content.length_eq, hlen, hreb.cap_eq]
    exact hcap

end Placed

end LoveRuntime.Symbols
