import LoveRuntime.Model.Symbols
import LoveRuntime.Verification.Tablet.Delete

/-! The heap beside the intern map, and the map's invariant. -/

namespace LoveRuntime.Symbols

variable {r : Arch} {c : Core} {t : Tablet ℕ ℕ} {b : ℕ} {held : List ℕ}

/-! ## Objects -/

theorem mem_fields_back {f : ℕ} : f ∈ (Obj.back t).fields ↔ ∃ e ∈ t.entries, f = e.1 ∨ f = e.2 := by
  simp only [Obj.fields, List.mem_flatMap, List.mem_range, Tablet.mem_entries]
  constructor
  · rintro ⟨i, hi, hf⟩
    cases hs : t.slots i with
    | none =>
        rw [hs] at hf
        cases hf
    | some e =>
        rw [hs] at hf
        exact ⟨e, ⟨i, hi, hs⟩, by simpa using hf⟩
  · rintro ⟨e, ⟨i, hi, hs⟩, hf⟩
    refine ⟨i, hi, ?_⟩
    rw [hs]
    simpa using hf

theorem mapSlots_entries (f : ℕ → ℕ) (t : Tablet ℕ ℕ) :
    (mapSlots f t).entries = t.entries.map fun e => (f e.1, f e.2) := by
  rw [Tablet.entries, Probing.entries, Tablet.entries, Probing.entries, List.map_filterMap]
  refine List.filterMap_congr fun i hi => ?_
  have hlt : i < t.cap := List.mem_range.mp hi
  simp only [mapSlots, if_pos hlt]

theorem mem_fields_map {f : ℕ → ℕ} {o : Obj} {x : ℕ} : x ∈ (o.map f).fields ↔ ∃ y ∈ o.fields, f y = x := by
  cases o with
  | dead => simp [Obj.map, Obj.fields]
  | str bytes => simp [Obj.map, Obj.fields]
  | nom name dig => simp [Obj.map, Obj.fields, eq_comm]
  | head b => simp [Obj.map, Obj.fields, eq_comm]
  | back t =>
      rw [Obj.map, mem_fields_back, mapSlots_entries]
      simp only [List.mem_map, mem_fields_back]
      constructor
      · rintro ⟨_, ⟨e, he, rfl⟩, hx | hx⟩
        · exact ⟨e.1, ⟨e, he, .inl rfl⟩, hx.symm⟩
        · exact ⟨e.2, ⟨e, he, .inr rfl⟩, hx.symm⟩
      · rintro ⟨y, ⟨e, he, rfl | rfl⟩, rfl⟩
        · exact ⟨_, ⟨e, he, rfl⟩, .inl rfl⟩
        · exact ⟨_, ⟨e, he, rfl⟩, .inr rfl⟩

/-- Fields that `f` leaves alone. -/
theorem map_of_fixed {f : ℕ → ℕ} {o : Obj} (h : ∀ x ∈ o.fields, f x = x) : o.map f = o := by
  cases o with
  | dead => rfl
  | str bytes => rfl
  | nom name dig => rw [Obj.map, h name (by simp [Obj.fields])]
  | head b => rw [Obj.map, h b (by simp [Obj.fields])]
  | back t =>
      have hslots : (mapSlots f t).slots = t.slots := by
        funext i
        rw [mapSlots]
        dsimp only
        split_ifs with hi
        · cases hs : t.slots i with
          | none => rfl
          | some e =>
              have hmem : e ∈ t.entries := Tablet.mem_entries.mpr ⟨i, hi, hs⟩
              rw [Option.map_some, h e.1 (mem_fields_back.mpr ⟨e, hmem, .inl rfl⟩),
                h e.2 (mem_fields_back.mpr ⟨e, hmem, .inr rfl⟩)]
        · rfl
      have hsame : mapSlots f t = { t with slots := (mapSlots f t).slots } := rfl
      rw [Obj.map, hsame, hslots]

/-- A map whose keys are other strings of the same text. -/
theorem mapSlots_inv {w w' : Walks ℕ} {f : ℕ → ℕ} (inv : TabletInv w t)
    (hhash : ∀ e ∈ t.entries, w'.hash (f e.1) = w.hash e.1)
    (heql : ∀ e ∈ t.entries, ∀ e' ∈ t.entries, w'.eql (f e.1) (f e'.1) = w.eql e.1 e'.1) :
    TabletInv w' (mapSlots f t) := by
  have hslots : ∀ p < t.cap, (mapSlots f t).slots p = (t.slots p).map fun e => (f e.1, f e.2) :=
    fun p hp => if_pos hp
  refine ⟨inv.power, ?_, inv.load, ?_, ?_⟩
  · rw [mapSlots_entries, List.length_map]
    exact inv.len_eq
  · rw [Distinct, mapSlots_entries, List.pairwise_map]
    refine inv.distinct.imp_of_mem fun ha hb hab => ?_
    rw [heql _ ha _ hb]
    exact hab
  · intro p hp e he q hq hahead
    rw [hslots p hp] at he
    obtain ⟨e₀, he₀, rfl⟩ := Option.map_eq_some_iff.mp he
    have hideal : (mapSlots f t).ideal w' (f e₀.1) = t.ideal w e₀.1 := by
      rw [Tablet.ideal, hhash e₀ (Tablet.mem_entries.mpr ⟨p, hp, he₀⟩)]
      rfl
    simp only [hideal] at hahead
    have hocc := inv.reach p hp e₀ he₀ q hq hahead
    rw [hslots q hq]
    simpa using hocc

/-! ## The heap -/

/-- Nothing lies past the heap's end, no field points there, and an old object that is not
remembered points to none of the young. -/
structure Sane (c : Core) : Prop where
  fresh : ∀ a, c.hp ≤ a → c.obj a = .dead
  within : ∀ a, ∀ f ∈ (c.obj a).fields, f < c.hp
  barrier : c.miss = false → ∀ a, c.young a = false → a ∉ c.rem → ∀ f ∈ (c.obj a).fields, c.young f = false

/-- The entries of an intern map: a nom for each key, of that name, and no other nom for the program
to reach. -/
structure Names (r : Arch) (c : Core) (held : List ℕ) (t : Tablet ℕ ℕ) : Prop where
  inv : TabletInv (c.walks r) t
  noms : ∀ e ∈ t.entries, c.obj e.2 = .nom e.1 (Core.textDig r (c.text e.1))
  keys : ∀ e ∈ t.entries, ∃ bytes, bytes ≠ [] ∧ c.obj e.1 = .str bytes
  reached : ∀ a ∈ held, ∃ e ∈ t.entries, e.2 = a

/-- The intern map `t`, in the backing `b`. -/
structure Mapped (r : Arch) (c : Core) (held : List ℕ) (b : ℕ) (t : Tablet ℕ ℕ) : Prop where
  head : c.obj c.symbols = .head b
  back : c.obj b = .back t
  names : Names r c held t

/-- The strings and the noms of `c` are in `c'` as they were. -/
structure Keeps (c c' : Core) : Prop where
  str : ∀ a bytes, c.obj a = .str bytes → c'.obj a = .str bytes
  nom : ∀ a name dig, c.obj a = .nom name dig → c'.obj a = .nom name dig

theorem Keeps.text {c' : Core} {a : ℕ} {bytes : List UInt8} (h : Keeps c c') (hstr : c.obj a = .str bytes) :
    c'.text a = c.text a := by
  simp only [Core.text, hstr, h.str a bytes hstr]

theorem Keeps.trans {c' c'' : Core} (h : Keeps c c') (h' : Keeps c' c'') : Keeps c c'' where
  str a bytes hstr := h'.str a bytes (h.str a bytes hstr)
  nom a name dig hnom := h'.nom a name dig (h.nom a name dig hnom)

theorem walks_lawful (r : Arch) (c : Core) : (c.walks r).Lawful where
  refl _ := beq_self_eq_true _
  symm _ _ h := beq_iff_eq.mpr (beq_iff_eq.mp h).symm
  trans _ _ _ hab hbd := beq_iff_eq.mpr ((beq_iff_eq.mp hab).trans (beq_iff_eq.mp hbd))
  hash _ _ h := congrArg (Core.textDig r) (beq_iff_eq.mp h)

theorem Sane.lt {a : ℕ} (h : Sane c) (ha : c.obj a ≠ .dead) : a < c.hp :=
  Nat.lt_of_not_le fun hle => ha (h.fresh a hle)

theorem Mapped.table (h : Mapped r c held b t) : c.table = some (b, t) := by
  simp only [Core.table, h.head, h.back]

namespace Names

variable (h : Names r c held t)
include h

theorem spelling {e : ℕ × ℕ} (he : e ∈ t.entries) : c.spelling e.2 = c.text e.1 := by
  simp only [Core.spelling, h.noms e he]

/-- Two noms of one spelling are one. -/
theorem unique {a a' : ℕ} (ha : a ∈ held) (ha' : a' ∈ held) (heq : c.spelling a = c.spelling a') : a = a' := by
  obtain ⟨e, he, rfl⟩ := h.reached a ha
  obtain ⟨e', he', rfl⟩ := h.reached a' ha'
  rw [h.spelling he, h.spelling he'] at heq
  rw [h.inv.distinct.eq_of_eql (walks_lawful r c) he he' (beq_iff_eq.mpr heq)]

theorem spelling_ne {a : ℕ} (ha : a ∈ held) : c.spelling a ≠ [] := by
  obtain ⟨e, he, rfl⟩ := h.reached a ha
  obtain ⟨bytes, hne, hstr⟩ := h.keys e he
  rw [h.spelling he]
  simpa only [Core.text, hstr] using hne

/-- In a heap that holds the same strings and noms. -/
theorem extend {c' : Core} (hkeep : Keeps c c') : Names r c' held t := by
  have htext : ∀ e ∈ t.entries, c'.text e.1 = c.text e.1 := by
    intro e he
    obtain ⟨bytes, -, hstr⟩ := h.keys e he
    exact hkeep.text hstr
  refine ⟨?_, ?_, ?_, h.reached⟩
  · have hmap : (Obj.back t).map id = .back t := map_of_fixed fun _ _ => rfl
    rw [← Obj.back.inj hmap]
    refine mapSlots_inv h.inv (fun e he => congrArg _ (htext e he)) fun e he e' he' => ?_
    rw [Core.walks, Core.walks]
    dsimp only [id]
    rw [htext e he, htext e' he']
  · intro e he
    rw [hkeep.nom _ _ _ (h.noms e he), htext e he]
  · intro e he
    obtain ⟨bytes, hne, hstr⟩ := h.keys e he
    exact ⟨bytes, hne, hkeep.str _ _ hstr⟩

/-- The same entries in another backing. -/
theorem perm {t' : Tablet ℕ ℕ} (hinv : TabletInv (c.walks r) t') (hperm : t'.entries.Perm t.entries) :
    Names r c held t' where
  inv := hinv
  noms e he := h.noms e (hperm.mem_iff.mp he)
  keys e he := h.keys e (hperm.mem_iff.mp he)
  reached a ha := by
    obtain ⟨e, he, heq⟩ := h.reached a ha
    exact ⟨e, hperm.mem_iff.mpr he, heq⟩

end Names

theorem Keeps.spelling {c' : Core} (h : Keeps c c') (hn : Names r c held t) {a : ℕ} (ha : a ∈ held) :
    c'.spelling a = c.spelling a := by
  obtain ⟨e, he, rfl⟩ := hn.reached a ha
  obtain ⟨bytes, -, hstr⟩ := hn.keys e he
  rw [(hn.extend h).spelling he, hn.spelling he]
  exact h.text hstr

/-! ## Changes to the heap -/

theorem genWb_obj (c : Core) (a p : ℕ) : (c.genWb a p).obj = c.obj := by
  rw [Core.genWb, Core.genRemember]
  split_ifs <;> rfl

theorem genWb_young (c : Core) (a p : ℕ) : (c.genWb a p).young = c.young := by
  rw [Core.genWb, Core.genRemember]
  split_ifs <;> rfl

theorem genWb_hp (c : Core) (a p : ℕ) : (c.genWb a p).hp = c.hp := by
  rw [Core.genWb, Core.genRemember]
  split_ifs <;> rfl

theorem genWb_symbols (c : Core) (a p : ℕ) : (c.genWb a p).symbols = c.symbols := by
  rw [Core.genWb, Core.genRemember]
  split_ifs <;> rfl

/-- What the barrier remembers it goes on remembering, and an old object's young field is new to it
or the set has overflowed. -/
theorem genWb_rem (c : Core) (a p : ℕ) (hmiss : (c.genWb a p).miss = false) :
    c.miss = false ∧ c.rem ⊆ (c.genWb a p).rem ∧
      (c.young a = false → c.young p = true → a ∈ (c.genWb a p).rem) := by
  rw [Core.genWb] at hmiss ⊢
  split_ifs at hmiss ⊢ with hwb
  · rw [Core.genRemember] at hmiss ⊢
    split_ifs at hmiss ⊢ with hmem hroom
    · exact ⟨hmiss, List.Subset.refl _, fun _ _ => hmem⟩
    · exact ⟨hmiss, List.subset_cons_self a c.rem, fun _ _ => List.mem_cons_self⟩
  · refine ⟨hmiss, List.Subset.refl _, fun ha hp => ?_⟩
    simp [ha, hp] at hwb

/-- An object stored through the barrier. -/
theorem Sane.store {a p : ℕ} {o : Obj} (h : Sane c) (ha : a < c.hp) (ho : ∀ f ∈ o.fields, f < c.hp)
    (hp : ∀ f ∈ o.fields, f ∈ (c.obj a).fields ∨ (c.young f = true → c.young p = true)) :
    Sane ((c.write a o).genWb a p) := by
  have hobj : ((c.write a o).genWb a p).obj = Function.update c.obj a o := genWb_obj _ _ _
  refine ⟨?_, ?_, ?_⟩
  · rw [hobj, genWb_hp]
    intro x hx
    have hne : x ≠ a := Nat.ne_of_gt (Nat.lt_of_lt_of_le ha hx)
    rw [Function.update_of_ne hne]
    exact h.fresh x hx
  · rw [hobj, genWb_hp]
    intro x f hf
    by_cases hx : x = a
    · rw [hx, Function.update_self] at hf
      exact ho f hf
    · rw [Function.update_of_ne hx] at hf
      exact h.within x f hf
  · intro hmiss x hyoung hrem f hf
    obtain ⟨hmiss₀, hsub, hnew⟩ := genWb_rem _ _ _ hmiss
    rw [genWb_young] at hyoung ⊢
    rw [hobj] at hf
    have hnot : x ∉ c.rem := fun hmem => hrem (hsub hmem)
    by_cases hx : x = a
    · rw [hx, Function.update_self] at hf
      subst hx
      rcases hp f hf with hold | hyoungf
      · exact h.barrier hmiss₀ x hyoung hnot f hold
      · by_contra hne
        exact hrem (hnew hyoung (hyoungf (Bool.of_not_eq_false hne)))
    · rw [Function.update_of_ne hx] at hf
      exact h.barrier hmiss₀ x hyoung hnot f hf

/-- A new object, old only when it points nowhere young. -/
theorem Sane.alloc {o : Obj} {young : Bool} (h : Sane c) (ho : ∀ f ∈ o.fields, f < c.hp)
    (hyoung : young = false → o.fields = []) : Sane (c.alloc o young) := by
  refine ⟨?_, ?_, ?_⟩
  · intro x hx
    have hx : c.hp + 1 ≤ x := hx
    have hne : x ≠ c.hp := by omega
    exact (Function.update_of_ne hne _ _).trans (h.fresh x (by omega))
  · intro x f hf
    have hlt : f < c.hp := by
      by_cases hx : x = c.hp
      · rw [Core.alloc, hx] at hf
        dsimp only at hf
        rw [Function.update_self] at hf
        exact ho f hf
      · rw [Core.alloc] at hf
        dsimp only at hf
        rw [Function.update_of_ne hx] at hf
        exact h.within x f hf
    exact Nat.lt_succ_of_lt hlt
  · intro hmiss x hx hrem f hf
    rw [Core.alloc] at hx hf ⊢
    dsimp only at hx hf ⊢
    by_cases hxhp : x = c.hp
    · rw [hxhp, Function.update_self] at hx hf
      rw [hyoung hx] at hf
      cases hf
    · rw [Function.update_of_ne hxhp] at hx hf
      rw [Function.update_of_ne (Nat.ne_of_lt (h.within x f hf))]
      exact h.barrier hmiss x hx hrem f hf

/-- What was there is there still. -/
theorem alloc_obj (h : Sane c) (o : Obj) (young : Bool) {a : ℕ} (ha : c.obj a ≠ .dead) :
    (c.alloc o young).obj a = c.obj a :=
  Function.update_of_ne (Nat.ne_of_lt (h.lt ha)) _ _

theorem alloc_keeps (h : Sane c) (o : Obj) (young : Bool) : Keeps c (c.alloc o young) where
  str a bytes hstr := by
    rw [alloc_obj h o young (by rw [hstr]; exact nofun), hstr]
  nom a name dig hnom := by
    rw [alloc_obj h o young (by rw [hnom]; exact nofun), hnom]

theorem store_obj (c : Core) (a p : ℕ) (o : Obj) :
    ((c.write a o).genWb a p).obj = Function.update c.obj a o :=
  genWb_obj _ _ _

/-- A header or a backing written over keeps the strings and the noms. -/
theorem store_keeps {a p : ℕ} {o : Obj} (ha : (∃ b, c.obj a = .head b) ∨ ∃ t, c.obj a = .back t) :
    Keeps c ((c.write a o).genWb a p) := by
  have hother : ∀ x, c.obj x ≠ c.obj a → ((c.write a o).genWb a p).obj x = c.obj x := by
    intro x hx
    rw [store_obj]
    exact Function.update_of_ne (fun heq => hx (congrArg c.obj heq)) _ _
  constructor
  · intro x bytes hstr
    rw [hother x, hstr]
    rcases ha with ⟨b, hb⟩ | ⟨t, ht⟩
    · rw [hstr, hb]
      exact nofun
    · rw [hstr, ht]
      exact nofun
  · intro x name dig hnom
    rw [hother x, hnom]
    rcases ha with ⟨b, hb⟩ | ⟨t, ht⟩
    · rw [hnom, hb]
      exact nofun
    · rw [hnom, ht]
      exact nofun

end LoveRuntime.Symbols

/-! One intern: the nom there is, or a new one, in a map that has room for it. -/

namespace LoveRuntime.Symbols

open Probing

variable {r : Arch} {c : Core} {t : Tablet ℕ ℕ} {b key : ℕ} {held : List ℕ}

/-- The gap that ends the way of an absent key. -/
structure Gap (r : Arch) (c : Core) (t : Tablet ℕ ℕ) (key i : ℕ) : Prop where
  lt : i < t.cap
  empty : t.slots i = none
  clear : Clear t.cap t.slots (t.ideal (c.walks r) key) i
  absent : ∀ e ∈ t.entries, (c.walks r).eql key e.1 = false

theorem ample (r : Arch) (c : Core) (t : Tablet ℕ ℕ) (key : ℕ) : Ample (c.walks r) t.entries key 0 :=
  ⟨le_rfl, fun _ _ => le_rfl, fun _ _ => le_rfl⟩

/-- A probe over strings always answers. -/
theorem mapProbe_cases (r : Arch) (c : Core) (h : TabletInv (c.walks r) t) (key : ℕ) :
    (∃ i e, mapProbe (c.walks r) 0 t key = .ok (true, i) ∧ t.slots i = some e ∧ e ∈ t.entries ∧
        c.text key = c.text e.1) ∨
      ∃ i, mapProbe (c.walks r) 0 t key = .ok (false, i) ∧ Gap r c t key i := by
  have hp := mapProbe_probed (walks_lawful r c) h 0 key
  cases hm : mapProbe (c.walks r) 0 t key with
  | error e =>
      rw [hm] at hp
      cases hp with
      | torn hshort => exact absurd (ample r c t key) hshort
  | ok a =>
      rw [hm] at hp
      cases hp with
      | @found i e hi he heql =>
          exact .inl ⟨i, e, rfl, he, Tablet.mem_entries.mpr ⟨i, hi, he⟩, beq_iff_eq.mp heql⟩
      | @gap i hi hgap hclear habsent => exact .inr ⟨i, rfl, hi, hgap, hclear, habsent⟩

/-- What the room of an intern must hold for a map like `t`. -/
def mapNeed (t : Tablet ℕ ℕ) : ℕ :=
  nomWidth + if t.cap * 3 ≤ (t.len + 1) * 4 then mapBackWords (2 * t.cap) else 0

theorem Mapped.reserve (h : Mapped r c held b t) : c.internReserve = mapNeed t := by
  simp only [Core.internReserve, h.table, mapNeed]

theorem Mapped.extend {c' : Core} (h : Mapped r c held b t) (hkeep : Keeps c c') (hsym : c'.symbols = c.symbols)
    (hhead : c'.obj c.symbols = c.obj c.symbols) (hback : c'.obj b = c.obj b) : Mapped r c' held b t where
  head := by rw [hsym, hhead, h.head]
  back := by rw [hback, h.back]
  names := h.names.extend hkeep

theorem Mapped.alloc (hs : Sane c) (h : Mapped r c held b t) (o : Obj) (young : Bool) :
    Mapped r (c.alloc o young) held b t := by
  refine h.extend (alloc_keeps hs o young) rfl ?_ ?_
  · exact alloc_obj hs o young (by rw [h.head]; exact nofun)
  · exact alloc_obj hs o young (by rw [h.back]; exact nofun)

/-- The core whose header points to the new backing `nb`. -/
def rehead (c : Core) (nb : Tablet ℕ ℕ) : Core :=
  ((c.alloc (.back nb) true).write c.symbols (.head c.hp)).genWb c.symbols c.hp

theorem rehead_keeps {nb : Tablet ℕ ℕ} (hs : Sane c) (h : Mapped r c held b t) : Keeps c (rehead c nb) := by
  refine (alloc_keeps hs (.back nb) true).trans (store_keeps (.inl ⟨b, ?_⟩))
  exact (h.alloc hs _ _).head

theorem Sane.rehead {nb : Tablet ℕ ℕ} (hs : Sane c) (h : Mapped r c held b t)
    (hperm : nb.entries.Perm t.entries) : Sane (rehead c nb) := by
  have hbackFields : ∀ f ∈ (Obj.back nb).fields, f < c.hp := by
    intro f hf
    obtain ⟨e, he, hfe⟩ := mem_fields_back.mp hf
    refine hs.within b f ?_
    rw [h.back]
    exact mem_fields_back.mpr ⟨e, hperm.mem_iff.mp he, hfe⟩
  have halloc : Sane (c.alloc (.back nb) true) := hs.alloc hbackFields nofun
  have hsym : c.symbols < c.hp := hs.lt (by rw [h.head]; exact nofun)
  refine halloc.store (Nat.lt_succ_of_lt hsym) ?_ ?_
  · intro f hf
    rw [List.mem_singleton.mp hf]
    exact Nat.lt_succ_self c.hp
  · intro f hf
    rw [List.mem_singleton.mp hf]
    exact .inr id

/-- The doubled map in its new backing. -/
theorem Mapped.rehead {nb : Tablet ℕ ℕ} (hs : Sane c) (h : Mapped r c held b t)
    (hinv : TabletInv (c.walks r) nb) (hperm : nb.entries.Perm t.entries) :
    Mapped r (rehead c nb) held c.hp nb := by
  have hsym : (Symbols.rehead c nb).symbols = c.symbols := genWb_symbols _ _ _
  have hobj : (Symbols.rehead c nb).obj = Function.update (c.alloc (.back nb) true).obj c.symbols (.head c.hp) :=
    store_obj _ _ _ _
  have hne : c.hp ≠ c.symbols := Nat.ne_of_gt (hs.lt (by rw [h.head]; exact nofun))
  refine ⟨?_, ?_, (h.names.perm hinv hperm).extend (rehead_keeps hs h)⟩
  · rw [hsym, hobj, Function.update_self]
  · rw [hobj, Function.update_of_ne hne]
    exact Function.update_self _ _ _

theorem hashable (r : Arch) (c : Core) (l : List (ℕ × ℕ)) : Hashable (c.walks r) l 0 := fun _ _ => le_rfl

theorem mapGrow_grown (h : TabletInv (c.walks r) t) :
    ∃ nb, mapGrow (c.walks r) (some 0) t = .ok nb ∧ TabletInv (c.walks r) nb ∧ nb.cap = 2 * t.cap ∧
      nb.entries.Perm t.entries := by
  have hg := mapGrow_attempt (walks_lawful r c) h 0
  cases hgrow : mapGrow (c.walks r) (some 0) t with
  | error e =>
      rw [hgrow] at hg
      cases hg with
      | torn hshort => exact absurd (hashable r c t.entries) hshort
  | ok nb =>
      rw [hgrow] at hg
      cases hg with
      | answer hnb => exact ⟨nb, rfl, hnb⟩

/-- A core ready to take the key at `i`, with room for its nom. -/
structure Prepared (r : Arch) (c : Core) (held : List ℕ) (key : ℕ) (c' : Core) (room b : ℕ) (t : Tablet ℕ ℕ)
    (i : ℕ) : Prop where
  sane : Sane c'
  mapped : Mapped r c' held b t
  keeps : Keeps c c'
  gap : Gap r c' t key i
  load : (t.len + 1) * 4 < t.cap * 3
  room : nomWidth ≤ room

theorem internGrow_prepared {i room : ℕ} {bytes : List UInt8} (hs : Sane c) (h : Mapped r c held b t)
    (hgap : Gap r c t key i) (hkey : c.obj key = .str bytes) (hroom : mapNeed t ≤ room) :
    ∃ c' room' b' t' i', c.internGrow r room b t i key = .ok (c', room', b', t', i') ∧
      Prepared r c held key c' room' b' t' i' := by
  rw [mapNeed] at hroom
  rw [Core.internGrow]
  by_cases hload : t.cap * 3 ≤ (t.len + 1) * 4
  · rw [if_pos hload] at hroom
    have hbump : Core.bump room (mapBackWords (2 * t.cap)) = .ok (room - mapBackWords (2 * t.cap)) :=
      if_neg (by omega)
    obtain ⟨nb, hgrow, hinv, hcap, hperm⟩ := mapGrow_grown h.names.inv
    have hmapped : Mapped r (rehead c nb) held c.hp nb := h.rehead hs hinv hperm
    have hkeeps : Keeps c (rehead c nb) := rehead_keeps hs h
    have hlen : nb.len = t.len := by
      rw [hinv.len_eq, h.names.inv.len_eq, hperm.length_eq]
    rw [if_pos hload, hbump]
    dsimp only [bind, Except.bind]
    rw [hgrow]
    dsimp only
    have hre : rehead c nb = ((c.alloc (.back nb) true).write (c.alloc (.back nb) true).symbols
        (.head c.hp)).genWb (c.alloc (.back nb) true).symbols c.hp := rfl
    rw [← hre]
    rcases mapProbe_cases r (rehead c nb) hmapped.names.inv key with
      ⟨j, e, -, -, he, htext⟩ | ⟨j, hprobe, hgap'⟩
    · exfalso
      have he₀ : e ∈ t.entries := hperm.mem_iff.mp he
      obtain ⟨bytes', -, hstr⟩ := h.names.keys e he₀
      have habsent := hgap.absent e he₀
      rw [hkeeps.text hkey, hkeeps.text hstr] at htext
      rw [Core.walks] at habsent
      dsimp only at habsent
      rw [htext, beq_self_eq_true] at habsent
      cases habsent
    · rw [hprobe]
      refine ⟨_, _, _, _, _, rfl, hs.rehead h hperm, hmapped, hkeeps, hgap', ?_, by omega⟩
      have hbelow := h.names.inv.load
      have hpos := Tablet.cap_pos h.names.inv.power
      rcases (show t.cap = 1 ∨ 2 ≤ t.cap by omega) with hone | htwo <;> omega
  · rw [if_neg hload] at hroom ⊢
    exact ⟨_, _, _, _, _, rfl, hs, h, ⟨fun _ _ h => h, fun _ _ _ h => h⟩, hgap, by omega, by omega⟩

/-- The new nom goes in under its key. -/
theorem Prepared.take {c' : Core} {room i : ℕ} {bytes : List UInt8} (h : Prepared r c held key c' room b t i)
    (hkey : c.obj key = .str bytes) (hne : bytes ≠ []) :
    let c₂ := c'.alloc (.nom key (Core.textDig r (c'.text key))) true
    let c₃ := (c₂.write b (.back (t.occupy i key c'.hp))).genWb b c'.hp
    Sane c₃ ∧ Mapped r c₃ (c'.hp :: held) b (t.occupy i key c'.hp) ∧ Keeps c c₃ ∧ c₃.spelling c'.hp = bytes := by
  intro c₂ c₃
  have hkey' : c'.obj key = .str bytes := h.keeps.str _ _ hkey
  have hkeylt : key < c'.hp := h.sane.lt (by rw [hkey']; exact nofun)
  have hs₂ : Sane c₂ := h.sane.alloc (fun f hf => by rwa [List.mem_singleton.mp hf]) nofun
  have hm₂ : Mapped r c₂ held b t := h.mapped.alloc h.sane _ _
  have hblt : b < c₂.hp := hs₂.lt (by rw [hm₂.back]; exact nofun)
  have hkeep₂ : Keeps c' c₂ := alloc_keeps h.sane _ _
  have hkeep₃ : Keeps c₂ c₃ := store_keeps (.inr ⟨t, hm₂.back⟩)
  have hnom₂ : c₂.obj c'.hp = .nom key (Core.textDig r (c'.text key)) := Function.update_self _ _ _
  have hentries : (t.occupy i key c'.hp).entries.Perm ((key, c'.hp) :: t.entries) :=
    Tablet.occupy_entries h.gap.lt h.gap.empty
  have hs₃ : Sane c₃ := by
    refine hs₂.store hblt ?_ fun f _ => .inr fun _ => Function.update_self _ _ _
    intro f hf
    obtain ⟨e, he, hfe⟩ := mem_fields_back.mp hf
    rcases List.mem_cons.mp (hentries.mem_iff.mp he) with rfl | he
    · rcases hfe with rfl | rfl
      · exact Nat.lt_succ_of_lt hkeylt
      · exact Nat.lt_succ_self _
    · refine hs₂.within b f ?_
      rw [hm₂.back]
      exact mem_fields_back.mpr ⟨e, he, hfe⟩
  have hnames : Names r c₂ (c'.hp :: held) (t.occupy i key c'.hp) := by
    have hgap₂ : ∀ e ∈ t.entries, (c₂.walks r).eql key e.1 = false := by
      intro e he
      obtain ⟨bytes', -, hstr⟩ := h.mapped.names.keys e he
      rw [← h.gap.absent e he, Core.walks, Core.walks]
      dsimp only
      rw [hkeep₂.text hkey', hkeep₂.text hstr]
    have hclear₂ : Clear t.cap t.slots (t.ideal (c₂.walks r) key) i := by
      have hideal : t.ideal (c₂.walks r) key = t.ideal (c'.walks r) key := by
        rw [Tablet.ideal, Tablet.ideal, Core.walks, Core.walks]
        dsimp only
        rw [hkeep₂.text hkey']
      rw [hideal]
      exact h.gap.clear
    refine ⟨hm₂.names.inv.occupy (walks_lawful r c₂) h.gap.lt h.gap.empty hclear₂ hgap₂ h.load, ?_, ?_, ?_⟩
    · intro e he
      rcases List.mem_cons.mp (hentries.mem_iff.mp he) with rfl | he
      · rw [hnom₂, hkeep₂.text hkey']
      · exact hm₂.names.noms e he
    · intro e he
      rcases List.mem_cons.mp (hentries.mem_iff.mp he) with rfl | he
      · exact ⟨bytes, hne, hkeep₂.str _ _ hkey'⟩
      · exact hm₂.names.keys e he
    · intro a ha
      rcases List.mem_cons.mp ha with rfl | ha
      · exact ⟨_, hentries.mem_iff.mpr List.mem_cons_self, rfl⟩
      · obtain ⟨e, he, heq⟩ := hm₂.names.reached a ha
        exact ⟨e, hentries.mem_iff.mpr (List.mem_cons_of_mem _ he), heq⟩
  have hobj₃ : c₃.obj = Function.update c₂.obj b (.back (t.occupy i key c'.hp)) := store_obj _ _ _ _
  refine ⟨hs₃, ⟨?_, ?_, hnames.extend hkeep₃⟩, (h.keeps.trans hkeep₂).trans hkeep₃, ?_⟩
  · have hsymb : c₂.symbols ≠ b := by
      intro heq
      have hhead := hm₂.head
      rw [heq, hm₂.back] at hhead
      cases hhead
    have hsym₃ : c₃.symbols = c₂.symbols := genWb_symbols _ _ _
    rw [hsym₃, hobj₃, Function.update_of_ne hsymb]
    exact hm₂.head
  · rw [hobj₃, Function.update_self]
  · have hstr₃ : c₃.obj key = .str bytes := hkeep₃.str _ _ (hkeep₂.str _ _ hkey')
    simp only [Core.spelling, hkeep₃.nom _ _ _ hnom₂, Core.text, hstr₃]

/-- What an intern comes to. -/
structure Interned (r : Arch) (c c' : Core) (held : List ℕ) (bytes : List UInt8) (y : ℕ) : Prop where
  sane : Sane c'
  mapped : ∃ b t, Mapped r c' (y :: held) b t
  keeps : Keeps c c'
  spells : c'.spelling y = bytes

theorem internChecked_interned {room : ℕ} {bytes : List UInt8} (hs : Sane c) (h : Mapped r c held b t)
    (hkey : c.obj key = .str bytes) (hne : bytes ≠ []) (hroom : mapNeed t ≤ room) :
    ∃ c' y, c.internChecked r room key = .ok (c', y) ∧ Interned r c c' held bytes y := by
  have htext : c.text key = bytes := by simp only [Core.text, hkey]
  rw [Core.internChecked, h.table]
  dsimp only
  rcases mapProbe_cases r c h.names.inv key with ⟨i, e, hprobe, hslot, he, heq⟩ | ⟨i, hprobe, hgap⟩
  · rw [hprobe]
    dsimp only [bind, Except.bind]
    rw [if_pos rfl, hslot]
    refine ⟨c, e.2, rfl, hs, ⟨b, t, h.head, h.back, ?_⟩, ⟨fun _ _ h => h, fun _ _ _ h => h⟩, ?_⟩
    · refine ⟨h.names.inv, h.names.noms, h.names.keys, ?_⟩
      intro a ha
      rcases List.mem_cons.mp ha with rfl | ha
      · exact ⟨e, he, rfl⟩
      · exact h.names.reached a ha
    · rw [h.names.spelling he, ← heq, htext]
  · obtain ⟨c', room', b', t', i', hgrow, hprep⟩ := internGrow_prepared hs h hgap hkey hroom
    have hbump : Core.bump room' nomWidth = .ok (room' - nomWidth) := if_neg (Nat.not_lt.mpr hprep.room)
    obtain ⟨hs', hmapped', hkeep', hspell⟩ := hprep.take hkey hne
    rw [hprobe]
    dsimp only [bind, Except.bind]
    rw [if_neg Bool.false_ne_true, hgrow]
    dsimp only
    rw [hbump]
    exact ⟨_, _, rfl, hs', ⟨_, _, hmapped'⟩, hkeep', hspell⟩

/-- Interning never fails in the room it reserved, and keeps the map. -/
theorem lvmIntern_interned {room : ℕ} (hs : Sane c) (h : Mapped r c held b t) (old : Bool) {bytes : List UInt8}
    (hne : bytes ≠ []) (hroom : mapNeed t ≤ room) :
    ∃ c' y, c.lvmIntern r room old bytes = .ok (c', some y) ∧ Interned r c c' held bytes y := by
  have hs₁ : Sane (c.alloc (.str bytes) (!old)) := hs.alloc nofun fun _ => rfl
  have hstr : (c.alloc (.str bytes) (!old)).obj c.hp = .str bytes := Function.update_self _ _ _
  have hm₁ : Mapped r (c.alloc (.str bytes) (!old)) held b t := h.alloc hs _ _
  obtain ⟨c', y, hy, hint⟩ := internChecked_interned hs₁ hm₁ hstr hne hroom
  refine ⟨c', y, ?_, hint.sane, hint.mapped, (alloc_keeps hs _ _).trans hint.keeps, hint.spells⟩
  rw [Core.lvmIntern, if_neg hne, hy]
  rfl

end LoveRuntime.Symbols
