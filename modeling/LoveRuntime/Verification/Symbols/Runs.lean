import LoveRuntime.Verification.Symbols.Collect

/-! # One nom a spelling

Through every run of interns, growths and collections. -/

namespace LoveRuntime.Symbols

variable {r : Arch} {c c' : Core} {p : Pass} {held : List ℕ} {t : Tablet ℕ ℕ} {b : ℕ}

/-! ## Collections -/

theorem closed_all (c : Core) : Closed c fun _ => true := nofun

/-- What a collection comes to. -/
structure Carried (r : Arch) (c : Core) (held : List ℕ) (t : Tablet ℕ ℕ) (f : ℕ → ℕ) (c' : Core) : Prop where
  sane : Sane c'
  mapped : ∃ b' t', Mapped r c' (held.map f) b' t' ∧ mapNeed t' ≤ mapNeed t
  spells : ∀ a ∈ held, c'.spelling (f a) = c.spelling a

theorem spelling_carried {inFrom : ℕ → Bool} {roots : List ℕ} (htr : Traces c p inFrom roots) (hsub : held ⊆ roots)
    (hpass : Passed c p inFrom c') (hn : Names r c held t) : ∀ a ∈ held, c'.spelling (p.gcp a) = c.spelling a := by
  intro a ha
  obtain ⟨e, he, rfl⟩ := hn.reached a ha
  exact hpass.spelling htr hn he (htr.roots e.2 (hsub ha))

theorem genMinor_carried (hs : Sane c) (hm : Mapped r c held b t) (hmiss : c.miss = false)
    (h : Traces c p c.young (c.symbols :: held)) (hrem : Remembers c p) :
    Carried r c held t p.gcp (c.genMinor p) where
  sane := hs.minor h hrem
  mapped := ⟨_, _, hm.minor hs hmiss h, le_rfl⟩
  spells := spelling_carried h (List.subset_cons_self _ _) (h.passed hs (closed_young hs hmiss) fun _ _ => rfl) hm.names

/-- The heap behind a trace of everything, and the noms the rebuilt map finds there. -/
theorem names_rebuilt {nb : Tablet ℕ ℕ} (h : Traces c p (fun _ => true) held) (hpass : Passed c p (fun _ => true) c')
    (hn : Names r c held t) (hinv : TabletInv (c'.walks r) nb)
    (hperm : nb.entries.Perm (t.entries.filterMap (survivor p))) : Names r c' (held.map p.gcp) nb := by
  have hplace : ∀ e' ∈ nb.entries, ∃ e ∈ t.entries, survivor p e = some e' :=
    fun e' he' => List.mem_filterMap.mp (hperm.mem_iff.mp he')
  refine ⟨hinv, ?_, ?_, ?_⟩
  · intro e' he'
    obtain ⟨e, he, hs⟩ := hplace e' he'
    exact (survivor_placed h hpass hn he hs).1
  · intro e' he'
    obtain ⟨e, he, hs⟩ := hplace e' he'
    exact (survivor_placed h hpass hn he hs).2.2
  · intro a' ha'
    obtain ⟨a, ha, rfl⟩ := List.mem_map.mp ha'
    obtain ⟨e, he, rfl⟩ := hn.reached a ha
    obtain ⟨fwd, hfwd⟩ := Option.isSome_iff_exists.mp (h.roots e.2 ha rfl)
    have hs : survivor p e = some (p.gcp e.1, fwd) := by
      rw [survivor, Core.symSurvived, hfwd, Option.map_some]
    exact ⟨_, hperm.mem_iff.mpr (List.mem_filterMap.mpr ⟨e, he, hs⟩), (gcp_of_fwd hfwd).symm⟩

/-- The core behind a major, with the map `nb`. -/
def majored (c : Core) (p : Pass) (nb : Tablet ℕ ℕ) : Core where
  obj := Function.update (Function.update (c.moved p fun _ => true) p.hp (.back nb)) (p.hp + 1) (.head p.hp)
  young := fun _ => false
  hp := p.hp + 2
  symbols := p.hp + 1
  rem := []
  miss := false

section Majored

variable (c) (p) (nb : Tablet ℕ ℕ)

theorem majored_head : (majored c p nb).obj (p.hp + 1) = .head p.hp := Function.update_self _ _ _

theorem majored_back : (majored c p nb).obj p.hp = .back nb := by
  have hne : p.hp ≠ p.hp + 1 := by omega
  exact (Function.update_of_ne hne _ _).trans (Function.update_self _ _ _)

theorem majored_obj {a : ℕ} (ha : a ≠ p.hp) (ha' : a ≠ p.hp + 1) :
    (majored c p nb).obj a = c.moved p (fun _ => true) a :=
  (Function.update_of_ne ha' _ _).trans (Function.update_of_ne ha _ _)

end Majored

theorem majored_sane {nb : Tablet ℕ ℕ} (hs : Sane c) (h : Traces c p (fun _ => true) held)
    (hnb : ∀ f ∈ (Obj.back nb).fields, f < p.hp) : Sane (majored c p nb) := by
  refine ⟨?_, ?_, fun _ _ _ _ _ _ => rfl⟩
  · intro a ha
    have ha : p.hp + 2 ≤ a := ha
    rw [majored_obj c p nb (by omega) (by omega)]
    exact h.moved_fresh hs (by omega)
  · intro a f hf
    have hlt : f < p.hp + 1 := by
      by_cases hback : a = p.hp
      · rw [hback, majored_back] at hf
        exact Nat.lt_succ_of_lt (hnb f hf)
      · by_cases hhead : a = p.hp + 1
        · rw [hhead, majored_head] at hf
          rw [List.mem_singleton.mp hf]
          exact Nat.lt_succ_self _
        · rw [majored_obj c p nb hback hhead] at hf
          exact Nat.lt_succ_of_lt (h.moved_within hs hf)
    exact Nat.lt_succ_of_lt hlt

theorem majored_keeps (hs : Sane c) (h : Traces c p (fun _ => true) held) (nb : Tablet ℕ ℕ) :
    Keeps { c with obj := c.moved p fun _ => true } (majored c p nb) := by
  have hlive : ∀ a, c.moved p (fun _ => true) a ≠ .dead →
      (majored c p nb).obj a = c.moved p (fun _ => true) a := by
    intro a ha
    have hlt : a < p.hp := Nat.lt_of_not_le fun hle => ha (h.moved_fresh hs hle)
    exact majored_obj c p nb (by omega) (by omega)
  constructor
  · intro a bytes hstr
    have hstr : c.moved p (fun _ => true) a = .str bytes := hstr
    rw [hlive a (by rw [hstr]; exact nofun), hstr]
  · intro a name dig hnom
    have hnom : c.moved p (fun _ => true) a = .nom name dig := hnom
    rw [hlive a (by rw [hnom]; exact nofun), hnom]

/-- A major never fails to make the map again. -/
theorem genMajor_carried (hs : Sane c) (hm : Mapped r c held b t) (h : Traces c p (fun _ => true) held) :
    ∃ c', c.genMajor p = .ok c' ∧ Carried r c held t p.gcp c' := by
  let c₀ : Core := { c with obj := c.moved p fun _ => true }
  have hpass₀ : Passed c p (fun _ => true) c₀ := h.passed hs (closed_all c) fun _ _ => rfl
  obtain ⟨nb, hnb, hinv, hperm, hload⟩ := majorSymbolsRebuild_rebuilt h hpass₀ hm.names
  have hnames : Names r c₀ (held.map p.gcp) nb := names_rebuilt h hpass₀ hm.names hinv hperm
  have hfields : ∀ f ∈ (Obj.back nb).fields, f < p.hp := by
    intro f hf
    obtain ⟨e', he', hfe⟩ := mem_fields_back.mp hf
    obtain ⟨e, he, hse⟩ := List.mem_filterMap.mp (hperm.mem_iff.mp he')
    obtain ⟨heq, -⟩ := survivor_eq hse
    have hold : ∀ x ∈ (Obj.back t).fields, x < c.hp := by
      rw [← hm.back]
      exact hs.within b
    rw [heq] at hfe
    rcases hfe with rfl | rfl
    · exact h.gcp_lt (hold e.1 (mem_fields_back.mpr ⟨e, he, .inl rfl⟩))
    · exact h.gcp_lt (hold e.2 (mem_fields_back.mpr ⟨e, he, .inr rfl⟩))
  have hbelow : ∀ a < p.hp, (majored c p nb).obj a = c.moved p (fun _ => true) a :=
    fun a ha => majored_obj c p nb (by omega) (by omega)
  refine ⟨majored c p nb, ?_, majored_sane hs h hfields, ⟨p.hp, nb, ?_, ?_⟩, ?_⟩
  · have hnb : Core.majorSymbolsRebuild p (c.moved p fun _ => true) t = .ok nb := hnb
    rw [Core.genMajor, hm.table]
    dsimp only
    rw [hnb]
    rfl
  · exact ⟨majored_head c p nb, majored_back c p nb, hnames.extend (majored_keeps hs h nb)⟩
  · rw [mapNeed, if_neg (Nat.not_le.mpr hload), mapNeed]
    omega
  · exact spelling_carried h (List.Subset.refl _) (h.passed hs (closed_all c) hbelow) hm.names

theorem Collects.carried (hs : Sane c) (hm : Mapped r c held b t) (h : Collects c held p c') :
    Carried r c held t p.gcp c' := by
  cases h with
  | minor hmiss htr hrem => exact genMinor_carried hs hm hmiss htr hrem
  | major htr hc =>
      obtain ⟨c'', hc'', hcar⟩ := genMajor_carried hs hm htr
      rw [hc''] at hc
      exact Except.ok.inj hc ▸ hcar

/-- Any number of collections leave the room that the reservation was made for. -/
theorem Collected.carried {held' : List ℕ} (hs : Sane c) (hm : Mapped r c held b t) (h : Collected c held c' held') :
    Sane c' ∧ ∃ b' t', Mapped r c' held' b' t' ∧ mapNeed t' ≤ mapNeed t := by
  induction h generalizing b t with
  | refl => exact ⟨hs, b, t, hm, le_rfl⟩
  | next h _ ih =>
      obtain ⟨hs₁, ⟨b₁, t₁, hm₁, hneed₁⟩, -⟩ := h.carried hs hm
      obtain ⟨hs₂, b₂, t₂, hm₂, hneed₂⟩ := ih hs₁ hm₁
      exact ⟨hs₂, b₂, t₂, hm₂, le_trans hneed₂ hneed₁⟩

/-! ## Runs -/

theorem boot_sane : Sane boot := by
  have hfields : ∀ a, ∀ f ∈ (boot.obj a).fields, f < boot.hp := by
    intro a f hf
    rw [boot] at hf
    dsimp only at hf
    by_cases h1 : a = 1
    · rw [h1, Function.update_self] at hf
      rw [List.mem_singleton.mp hf]
      decide
    · rw [Function.update_of_ne h1] at hf
      by_cases h0 : a = 0
      · rw [h0, Function.update_self, mem_fields_back] at hf
        obtain ⟨e, he, -⟩ := hf
        rw [mapFillBack_entries] at he
        cases he
      · rw [Function.update_of_ne h0] at hf
        cases hf
  refine ⟨?_, hfields, ?_⟩
  · intro a ha
    have ha : 2 ≤ a := ha
    rw [boot]
    dsimp only
    rw [Function.update_of_ne (by omega), Function.update_of_ne (by omega)]
  · intro _ a hyoung
    cases hyoung

theorem boot_mapped (r : Arch) : Mapped r boot [] 0 (mapFillBack mapMinCap) where
  head := by
    rw [boot]
    dsimp only
    rw [Function.update_self]
  back := by
    rw [boot]
    dsimp only
    rw [Function.update_of_ne (by decide), Function.update_self]
  names := by
    have hnone : ∀ e : ℕ × ℕ, e ∉ (mapFillBack mapMinCap : Tablet ℕ ℕ).entries := by
      intro e he
      rw [mapFillBack_entries] at he
      cases he
    exact ⟨mapFillBack_inv ⟨2, rfl⟩, fun e he => absurd he (hnone e), fun e he => absurd he (hnone e), nofun⟩

theorem Names.drop {held' : List ℕ} (h : Names r c held t) (hsub : held' ⊆ held) : Names r c held' t :=
  ⟨h.inv, h.noms, h.keys, fun a ha => h.reached a (hsub ha)⟩

theorem Reached.mapped (h : Reached r c held) : Sane c ∧ ∃ b t, Mapped r c held b t := by
  induction h with
  | boot => exact ⟨boot_sane, _, _, boot_mapped r⟩
  | drop _ hsub ih =>
      obtain ⟨hs, b, t, hm⟩ := ih
      exact ⟨hs, b, t, hm.head, hm.back, hm.names.drop hsub⟩
  | collect _ hc ih =>
      obtain ⟨hs, b, t, hm⟩ := ih
      obtain ⟨hs', ⟨b', t', hm', -⟩, -⟩ := hc.carried hs hm
      exact ⟨hs', b', t', hm'⟩
  | @intern c c₁ c₂ held held₁ old bytes y _ hc hy ih =>
      obtain ⟨hs, b, t, hm⟩ := ih
      obtain ⟨hs₁, b₁, t₁, hm₁, hneed⟩ := hc.carried hs hm
      rw [hm.reserve] at hy
      by_cases hne : bytes = []
      · rw [Core.lvmIntern, if_pos hne] at hy
        cases hy
        exact ⟨hs₁, b₁, t₁, hm₁⟩
      · obtain ⟨c', y', hy', hint⟩ := lvmIntern_interned hs₁ hm₁ old hne hneed
        rw [hy'] at hy
        cases hy
        obtain ⟨b', t', hm'⟩ := hint.mapped
        exact ⟨hint.sane, b', t', hm'⟩

/-- Of the noms a run's program reaches, two are one exactly when they spell the same bytes. A
collection carries each of them with its spelling, and never fails to make the map again; and an
intern, after whatever its reservation has collected, answers the nom of that spelling that there
is, leaving what the others spell. -/
theorem interned_once (h : Reached r c held) :
    (∀ a ∈ held, ∀ a' ∈ held, a = a' ↔ c.spelling a = c.spelling a') ∧
    (∀ p, Traces c p (fun _ => true) held → ∃ c', c.genMajor p = .ok c') ∧
    (∀ p c', Collects c held p c' → ∀ a ∈ held, c'.spelling (p.gcp a) = c.spelling a) ∧
    ∀ bytes old c₁ held₁, Collected c held c₁ held₁ →
      ∃ c₂ y, c₁.lvmIntern r c.internReserve old bytes = .ok (c₂, y) ∧ c₂.spelled y = bytes ∧
        (∀ a ∈ held₁, c₁.spelling a = bytes → y = some a) ∧ ∀ a ∈ held₁, c₂.spelling a = c₁.spelling a := by
  obtain ⟨hs, b, t, hm⟩ := h.mapped
  refine ⟨?_, ?_, ?_, ?_⟩
  · intro a ha a' ha'
    constructor
    · rintro rfl
      rfl
    · exact hm.names.unique ha ha'
  · intro p htr
    obtain ⟨c', hc', -⟩ := genMajor_carried hs hm htr
    exact ⟨c', hc'⟩
  · intro p c' hc
    exact (hc.carried hs hm).spells
  · intro bytes old c₁ held₁ hc
    obtain ⟨hs₁, b₁, t₁, hm₁, hneed⟩ := hc.carried hs hm
    rw [hm.reserve]
    by_cases hne : bytes = []
    · refine ⟨c₁, none, if_pos hne, hne.symm, ?_, fun _ _ => rfl⟩
      intro a ha hspell
      exact absurd (hspell.trans hne) (hm₁.names.spelling_ne ha)
    · obtain ⟨c₂, y, hy, hint⟩ := lvmIntern_interned hs₁ hm₁ old hne hneed
      obtain ⟨b₂, t₂, hm₂⟩ := hint.mapped
      have hkept : ∀ a ∈ held₁, c₂.spelling a = c₁.spelling a := fun a ha => hint.keeps.spelling hm₁.names ha
      refine ⟨c₂, some y, hy, hint.spells, ?_, hkept⟩
      intro a ha hspell
      have heq : c₂.spelling y = c₂.spelling a := by rw [hint.spells, hkept a ha, hspell]
      exact congrArg some (hm₂.names.unique List.mem_cons_self (List.mem_cons_of_mem y ha) heq)

theorem interned_once_first : ∃ c y, boot.lvmIntern .w64 boot.internReserve false [97] = .ok (c, some y) ∧
    c.spelling y = [97] ∧ ∃ c₂, c.lvmIntern .w64 c.internReserve true [97] = .ok (c₂, some y) := by
  obtain ⟨c, y, hy, hint⟩ := lvmIntern_interned (r := .w64) boot_sane (boot_mapped .w64) false
    (List.cons_ne_nil 97 []) le_rfl
  have hreserve : boot.internReserve = mapNeed (mapFillBack mapMinCap) := (boot_mapped .w64).reserve
  rw [← hreserve] at hy
  have hreached : Reached .w64 c [y] := .intern .boot (.refl boot []) hy
  obtain ⟨c₂, y₂, hy₂, -, hsame, -⟩ := (interned_once hreached).2.2.2 [97] true c [y] (.refl c [y])
  have heq : y₂ = some y := hsame y (List.mem_singleton_self y) hint.spells
  exact ⟨c, y, hy, hint.spells, c₂, heq ▸ hy₂⟩

end LoveRuntime.Symbols
