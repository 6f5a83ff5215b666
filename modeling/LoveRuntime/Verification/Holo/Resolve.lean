import LoveRuntime.Verification.Holo.Relax
import Mathlib.Logic.Equiv.List

/-! Pass two steps over a blob as over one byte: the addresses it hands to `patch` are those of pass one just where the
blobs before a fixup have as many bytes as there are blobs. -/

namespace LoveRuntime.Holo

variable {S F K E : Type}

/-- The fixups resolved at the addresses where they land. -/
def resolveAt (be : Backend S F K E) (labels : Labels S) (opened : S → Bool) :
    List (Item S K) → ℤ → Except (Scare S E) (List (Item S K))
  | [], _ => .ok []
  | .fix w kind l aux :: items, addr =>
    match labels l with
    | some tgt => do
      let bs ← patchWith be kind tgt addr w aux
      let rest ← resolveAt be labels opened items (addr + w)
      .ok (bs ++ rest)
    | none =>
      if opened l then do
        let rest ← resolveAt be labels opened items (addr + w)
        .ok (.fix w kind l aux :: rest)
      else .error (.undefLabel l)
  | x :: items, addr => do
    let rest ← resolveAt be labels opened items (addr + itemLen x)
    .ok (x :: rest)

/-- How many bytes more than one a blob has. -/
def drift : List (Item S K) → ℤ
  | [] => 0
  | .blob s :: items => s.length - 1 + drift items
  | _ :: items => drift items

/-- Before every fixup that is patched the blobs have as many bytes as there are blobs. -/
def Level (labels : Labels S) (items : List (Item S K)) : Prop :=
  ∀ p w kind l aux q, items = p ++ .fix w kind l aux :: q → labels l ≠ none → drift p = 0

/-- Every fixup has an address or stays open. -/
def Bound (labels : Labels S) (opened : S → Bool) (items : List (Item S K)) : Prop :=
  ∀ w kind l aux, .fix w kind l aux ∈ items → labels l ≠ none ∨ opened l = true

variable {be : Backend S F K E} {labels : Labels S} {opened : S → Bool}

/-- Addresses a fixed way apart, both walks agree where the blobs make up for it. -/
theorem resolveOpen_eq {items : List (Item S K)} {a d : ℤ}
    (h : ∀ p w kind l aux q, items = p ++ .fix w kind l aux :: q → labels l ≠ none → d + drift p = 0) :
    resolveOpen be labels opened items a = resolveAt be labels opened items (a + d) := by
  induction items generalizing a d with
  | nil => rfl
  | cons x items ih =>
      cases x with
      | byte b =>
          have ih := ih (a := a + 1) (d := d) fun p w kind l aux q hq hl =>
            by simpa [drift] using h (.byte b :: p) w kind l aux q (by rw [hq]; rfl) hl
          simp only [resolveOpen, resolveAt, itemLen, ih, Nat.cast_one, add_right_comm]
      | blob s =>
          have ih := ih (a := a + 1) (d := d + (s.length - 1)) fun p w kind l aux q hq hl =>
            by simpa [drift, add_assoc] using h (.blob s :: p) w kind l aux q (by rw [hq]; rfl) hl
          have haddr : a + 1 + (d + ((s.length : ℤ) - 1)) = a + d + s.length := by omega
          simp only [resolveOpen, resolveAt, itemLen, ih, haddr]
      | fix w kind l aux =>
          have ih := ih (a := a + w) (d := d) fun p w' kind' l' aux' q hq hl =>
            by simpa [drift] using h (.fix w kind l aux :: p) w' kind' l' aux' q (by rw [hq]; rfl) hl
          simp only [resolveOpen, resolveAt, ih, add_right_comm]
          cases hl : labels l with
          | none => rfl
          | some tgt =>
              have hd : d = 0 := by simpa [drift] using h [] w kind l aux items rfl (by simp [hl])
              rw [hd, add_zero]

theorem bind_eq_ok {ε α β : Type} {x : Except ε α} {f : α → Except ε β} {b : β} (h : (x >>= f) = .ok b) :
    ∃ a, x = .ok a ∧ f a = .ok b := by
  cases x with
  | error e => cases h
  | ok a => exact ⟨a, rfl, h⟩

theorem patchWith_eq_ok {kind : K} {t s : ℤ} {w : ℕ} {aux : ℤ} {bs : List (Item S K)}
    (h : patchWith be kind t s w aux = .ok bs) : ∃ bytes, be.patch kind t s w aux = .ok bytes ∧ bs = bytes.map .byte := by
  unfold patchWith at h
  split at h
  case h_1 => cases h
  case h_2 bytes hbytes => exact ⟨bytes, hbytes, (Except.ok.inj h).symm⟩

/-- Where it answers every fixup is bound or open. -/
theorem bound_of_resolveOpen {items out : List (Item S K)} {a : ℤ}
    (h : resolveOpen be labels opened items a = .ok out) : Bound labels opened items := by
  induction items generalizing a out with
  | nil => intro _ _ _ _ hmem; cases hmem
  | cons x items ih =>
      intro w kind l aux hmem
      cases x with
      | byte b =>
          obtain ⟨rest, hrest, -⟩ := bind_eq_ok h
          exact ih hrest w kind l aux (by simpa using hmem)
      | blob s =>
          obtain ⟨rest, hrest, -⟩ := bind_eq_ok h
          exact ih hrest w kind l aux (by simpa using hmem)
      | fix w' kind' l' aux' =>
          simp only [resolveOpen] at h
          cases hl : labels l' with
          | some tgt =>
              rw [hl] at h
              obtain ⟨bs, -, h⟩ := bind_eq_ok h
              obtain ⟨rest, hrest, -⟩ := bind_eq_ok h
              obtain heq | hmem := List.mem_cons.mp hmem
              · cases heq
                exact .inl (by simp [hl])
              · exact ih hrest w kind l aux hmem
          | none =>
              rw [hl] at h
              dsimp only at h
              split at h
              case isFalse => cases h
              case isTrue hopen =>
                obtain ⟨rest, hrest, -⟩ := bind_eq_ok h
                obtain heq | hmem := List.mem_cons.mp hmem
                · cases heq
                  exact .inr hopen
                · exact ih hrest w kind l aux hmem

/-- A patch that fills its fields leaves as many bytes as the items have. -/
theorem resolveOpen_total (hfill : ∀ kind t s w aux bs, be.patch kind t s w aux = .ok bs → bs.length = w)
    {items out : List (Item S K)} {a : ℤ} (h : resolveOpen be labels opened items a = .ok out) :
    total out = total items := by
  induction items generalizing a out with
  | nil =>
      cases h
      rfl
  | cons x items ih =>
      cases x with
      | byte b =>
          obtain ⟨rest, hrest, hout⟩ := bind_eq_ok h
          cases hout
          simp [ih hrest]
      | blob s =>
          obtain ⟨rest, hrest, hout⟩ := bind_eq_ok h
          cases hout
          simp [ih hrest]
      | fix w kind l aux =>
          simp only [resolveOpen] at h
          cases hl : labels l with
          | some tgt =>
              rw [hl] at h
              obtain ⟨bs, hbs, h⟩ := bind_eq_ok h
              obtain ⟨rest, hrest, hout⟩ := bind_eq_ok h
              obtain ⟨bytes, hbytes, rfl⟩ := patchWith_eq_ok hbs
              cases hout
              simp [ih hrest, hfill _ _ _ _ _ _ hbytes, itemLen]
          | none =>
              rw [hl] at h
              dsimp only at h
              split at h
              case isFalse => cases h
              case isTrue =>
                obtain ⟨rest, hrest, hout⟩ := bind_eq_ok h
                cases hout
                simp [ih hrest, itemLen]

/-! ### A patch that tells its address -/

/-- The address in unary. -/
def unary (s : ℤ) : List UInt8 := List.replicate (Encodable.encode s) 1 ++ [0]

theorem replicate_append_inj {α : Type} {x y : α} (hxy : x ≠ y) {m n : ℕ} {a b : List α}
    (h : List.replicate m x ++ y :: a = List.replicate n x ++ y :: b) : m = n ∧ a = b := by
  induction m generalizing n with
  | zero =>
      cases n with
      | zero => simpa using h
      | succ n => exact absurd (List.cons_eq_cons.mp h).1 hxy.symm
  | succ m ih =>
      cases n with
      | zero => exact absurd (List.cons_eq_cons.mp h).1 hxy
      | succ n =>
          obtain ⟨rfl, rfl⟩ := ih (List.cons_eq_cons.mp h).2
          exact ⟨rfl, rfl⟩

theorem unary_append_inj {s t : ℤ} {a b : List (Item S K)}
    (h : (unary s).map .byte ++ a = (unary t).map .byte ++ b) : s = t ∧ a = b := by
  simp only [unary, List.map_append, List.map_replicate, List.map_cons, List.map_nil, List.append_assoc,
    List.cons_append, List.nil_append] at h
  obtain ⟨hcode, rfl⟩ := replicate_append_inj (by simp) h
  exact ⟨Encodable.encode_injective hcode, rfl⟩

/-- The backend with a patch that tells the address it was handed. -/
def telling (be : Backend S F K E) : Backend S F K E := { be with patch := fun _ _ s _ _ => .ok (unary s) }

theorem resolveOpen_telling (be : Backend S F K E) {items : List (Item S K)} (hbound : Bound labels opened items) (a : ℤ) :
    ∃ out, resolveOpen (telling be) labels opened items a = .ok out := by
  induction items generalizing a with
  | nil => exact ⟨[], rfl⟩
  | cons x items ih =>
      have ih := ih fun w kind l aux hmem => hbound w kind l aux (by simp [hmem])
      cases x with
      | byte b =>
          obtain ⟨out, hout⟩ := ih (a + 1)
          exact ⟨_, by simp only [resolveOpen, hout]; rfl⟩
      | blob s =>
          obtain ⟨out, hout⟩ := ih (a + 1)
          exact ⟨_, by simp only [resolveOpen, hout]; rfl⟩
      | fix w kind l aux =>
          obtain ⟨out, hout⟩ := ih (a + w)
          cases hl : labels l with
          | some tgt => exact ⟨_, by rw [resolveOpen, hl, hout]; rfl⟩
          | none =>
              have hopen := (hbound w kind l aux (by simp)).resolve_left (by simp [hl])
              exact ⟨_, by rw [resolveOpen, hl, hout, if_pos hopen]; rfl⟩

/-- Two walks that tell the same addresses are apart only by what the blobs make up for. -/
theorem drift_of_telling {items out : List (Item S K)} {a d : ℤ}
    (h : resolveOpen (telling be) labels opened items a = .ok out)
    (h' : resolveAt (telling be) labels opened items (a + d) = .ok out) {p q : List (Item S K)} {w : ℕ} {kind : K}
    {l : S} {aux : ℤ} (hq : items = p ++ .fix w kind l aux :: q) (hl : labels l ≠ none) : d + drift p = 0 := by
  induction p generalizing items out a d with
  | nil =>
      subst hq
      cases hlab : labels l with
      | none => exact absurd hlab hl
      | some tgt =>
          simp only [List.nil_append, resolveOpen, resolveAt, hlab] at h h'
          obtain ⟨bs, hbs, h⟩ := bind_eq_ok h
          obtain ⟨rest, -, h⟩ := bind_eq_ok h
          obtain ⟨bs', hbs', h'⟩ := bind_eq_ok h'
          obtain ⟨rest', -, h'⟩ := bind_eq_ok h'
          cases hbs
          cases hbs'
          cases h
          obtain ⟨ha, -⟩ := unary_append_inj (Except.ok.inj h')
          simp only [drift]
          omega
  | cons x p ih =>
      subst hq
      cases x with
      | byte b =>
          obtain ⟨rest, hrest, h⟩ := bind_eq_ok h
          obtain ⟨rest', hrest', h'⟩ := bind_eq_ok h'
          cases h
          cases h'
          simpa [drift] using ih hrest (by rwa [itemLen, add_right_comm] at hrest') rfl
      | blob s =>
          obtain ⟨rest, hrest, h⟩ := bind_eq_ok h
          obtain ⟨rest', hrest', h'⟩ := bind_eq_ok h'
          cases h
          cases h'
          have haddr : a + d + (s.length : ℤ) = a + 1 + (d + (s.length - 1)) := by omega
          have := ih hrest (by rwa [itemLen, haddr] at hrest') rfl
          simp only [drift]
          omega
      | fix w' kind' l' aux' =>
          simp only [List.cons_append, resolveOpen, resolveAt] at h h'
          cases hlab : labels l' with
          | some tgt =>
              rw [hlab] at h h'
              obtain ⟨bs, hbs, h⟩ := bind_eq_ok h
              obtain ⟨rest, hrest, h⟩ := bind_eq_ok h
              obtain ⟨bs', hbs', h'⟩ := bind_eq_ok h'
              obtain ⟨rest', hrest', h'⟩ := bind_eq_ok h'
              cases hbs
              cases hbs'
              cases h
              obtain ⟨-, rfl⟩ := unary_append_inj (Except.ok.inj h')
              simpa [drift] using ih hrest (by rwa [add_right_comm] at hrest') rfl
          | none =>
              rw [hlab] at h h'
              dsimp only at h h'
              split at h
              case isFalse => cases h
              case isTrue hopen =>
                rw [if_pos hopen] at h'
                obtain ⟨rest, hrest, h⟩ := bind_eq_ok h
                obtain ⟨rest', hrest', h'⟩ := bind_eq_ok h'
                cases h
                cases h'
                simpa [drift] using ih hrest (by rwa [add_right_comm] at hrest') rfl

/-! ### The two passes -/

/-- Whatever the patch, where pass two answers, every fixup was patched at the address it lands at, and the bytes are as
many as the items have if the patch fills its fields. -/
def Resolved (be : Backend S F K E) (opened : S → Bool) (r : List (Item S K) × Labels S) (org : ℤ) : Prop :=
  ∀ patch out, resolveOpen { be with patch } r.2 opened r.1 org = .ok out →
    resolveAt { be with patch } r.2 opened r.1 org = .ok out ∧
      ((∀ kind t s w aux bs, patch kind t s w aux = .ok bs → bs.length = w) → total out = total r.1)

theorem resolved_iff (be : Backend S F K E) {r : List (Item S K) × Labels S} (org : ℤ) :
    Resolved be opened r org ↔ (Bound r.2 opened r.1 → Level r.2 r.1) := by
  constructor
  · intro h hbound p w kind l aux q hq hl
    obtain ⟨out, hout⟩ := resolveOpen_telling be hbound org
    have hat : resolveAt (telling be) r.2 opened r.1 (org + 0) = .ok out := by
      rw [add_zero]
      exact (h _ out hout).1
    simpa using drift_of_telling hout hat hq hl
  · intro h patch out hout
    have hlevel := h (bound_of_resolveOpen hout)
    refine ⟨?_, fun hfill => resolveOpen_total hfill hout⟩
    rw [← hout, resolveOpen_eq (d := 0) fun p w kind l aux q hq hl => by simpa using hlevel p w kind l aux q hq hl,
      add_zero]

/-- Items from either pass one, at any origin: the labels are at the bytes after them, and the fixups are patched where
they land, just when before each of them the blobs have as many bytes as there are blobs. -/
theorem resolve_agrees_iff [DecidableEq S] {prog : List (Ins S F)} {org : ℤ} {pre : Labels S} (longs : S → Bool)
    {r : List (Item S K) × Labels S}
    (h : lay be prog org [] pre = .ok r ∨ laylax be prog org pre longs = .ok r) :
    (Placed r.2 prog org r.1 ∧ (∀ l ∉ names prog, r.2 l = pre l) ∧ Resolved be opened r org) ↔
      (Bound r.2 opened r.1 → Level r.2 r.1) := by
  have hlays : Lays pre [] prog org r := by
    obtain h | h := h
    · exact lay_lays be prog org [] pre h
    · exact laylax_lays be prog org pre longs h
  obtain ⟨out, hout, hplaced, hrest⟩ := hlays
  rw [List.reverse_nil, List.nil_append] at hout
  subst hout
  rw [← resolved_iff be org]
  exact ⟨fun h => h.2.2, fun h => ⟨hplaced, hrest, h⟩⟩

/-- A jump back over a blob of one byte. -/
def byteProg : List (Ins String X64Row) := [.label "l" none, .form (.raw [.blob [144]]), .jmp "l"]

def byteItems : List (Item String X86Fix) := [.blob [144], .byte 233, .fix 4 .rel32 "l" 0]

theorem resolve_agrees_iff_byte :
    Placed (pin (fun _ => none) "l" 0) byteProg 0 byteItems ∧
      (∀ l ∉ names byteProg, pin (fun _ => none) "l" (0 : ℤ) l = none) ∧
      Resolved x64Rows (fun _ => false) (byteItems, pin (fun _ => none) "l" 0) 0 := by
  have hrun : lay x64Rows byteProg 0 [] (fun _ => none) = .ok (byteItems, pin (fun _ => none) "l" 0) := rfl
  refine (resolve_agrees_iff (fun _ => false) (.inl hrun)).mpr ?_
  intro _ p w kind l aux q h _
  match p, h with
  | [], h => simp [byteItems] at h
  | [_], h => simp [byteItems] at h
  | [_, _], h =>
      simp only [byteItems, List.cons_append, List.nil_append, List.cons.injEq] at h
      obtain ⟨rfl, rfl, -⟩ := h
      rfl
  | _ :: _ :: _ :: _, h => simp [byteItems] at h

/-- A jump after a blob of two bytes. -/
def blobProg : List (Ins String X64Row) := [.form (.raw [.blob [144, 144]]), .label "l" none, .jmp "l"]

/-- It is patched as though it lay a byte earlier, so that it lands a byte past its label. -/
theorem resolve_blob :
    ∃ r, lay x64Rows blobProg 0 [] (fun _ => none) = .ok r ∧
      resolve x64Rows r.1 r.2 0 = .ok [.blob [144, 144], .byte 233, .byte 252, .byte 255, .byte 255, .byte 255] ∧
      ¬Resolved x64Rows (fun _ => false) r 0 := by
  refine ⟨_, rfl, rfl, ?_⟩
  intro h
  have hat := (h x86Patch [.blob [144, 144], .byte 233, .byte 252, .byte 255, .byte 255, .byte 255] rfl).1
  have hland : resolveAt x64Rows (pin (fun _ => none) "l" 2) (fun _ => false)
      [.blob [144, 144], .byte 233, .fix 4 .rel32 "l" 0] 0 =
      .ok [.blob [144, 144], .byte 233, .byte 251, .byte 255, .byte 255, .byte 255] := rfl
  have heq := hland.symm.trans hat
  simp at heq

end LoveRuntime.Holo
