import LoveRuntime.Model.Num.Tower

/-! # Big numerals

`bigdigits` (`boot/post.l`): the digits of a nonnegative integer in a base, by halves. A level is a
power of the base, its bit length, its reciprocal and its digit count; each half is padded to the
digit count of its level. -/

namespace LoveRuntime.Bigdigits

/-! ## Integers -/

/-- `x << k` and `x >> k`. A count past an int is refused to the left and leaves the sign to the
right. -/
def shift (vop : ShiftVop) (x k : ℤ) : Option ℤ :=
  let left := (vop == .bsl) != decide (k < 0)
  if int32Max < k.natAbs then if left then none else some (if x < 0 then -1 else 0)
  else some (if left then x * 2 ^ k.natAbs else x / 2 ^ k.natAbs)

def shl : ℤ → ℤ → Option ℤ := shift .bsl

def shr : ℤ → ℤ → Option ℤ := shift .bsr

/-- `a // b`, a float for a zero divisor. -/
def quot (a b : ℤ) : Option ℤ := if b = 0 then none else some (a.tdiv b)

/-- `a % b`. -/
def rem (a b : ℤ) : ℤ := if b = 0 then a else a.tmod b

/-- `bitlen`. -/
def bitlen (x : ℤ) : ℕ := if x = 0 then 0 else x.natAbs.log2 + 1

/-! ## Digits -/

/-- A base. -/
structure Base where
  val : ℕ
  two_le : 2 ≤ val
  le : val ≤ 36

def digitByte (d : ℤ) : ℕ :=
  ("0123456789abcdefghijklmnopqrstuvwxyz".toList.map Char.toNat).getD d.toNat 0

/-- The digits of `n`, before `a`. -/
def dch (r : Base) (n : ℤ) (a : List ℕ) : List ℕ :=
  let q := n.tdiv r.val
  let d := digitByte (n - q * r.val)
  if 0 < q then dch r q (d :: a) else d :: a
  termination_by n.toNat
  decreasing_by
    rename_i hq
    have hr := r.two_le
    have hn : 0 < n := by
      by_contra hn
      have := Int.tdiv_nonneg (a := -n) (b := r.val) (by omega) (by omega)
      rw [Int.neg_tdiv] at this
      omega
    have hlt : n.tdiv r.val < n := by
      rw [Int.tdiv_eq_ediv_of_nonneg hn.le]
      exact Int.ediv_lt_self_of_pos_of_ne_one hn (by omega)
    omega

def dpad (w : ℕ) (s : List ℕ) : List ℕ :=
  if s.length < w then List.replicate (w - s.length) '0'.toNat ++ s else s

/-! ## Reciprocals -/

/-- `drecip`: newton from the reciprocal of the top half, then a fix by the residue. -/
def drecip (p : ℤ) (b : ℕ) : Option ℤ :=
  if _h : b ≤ 8192 then do quot (← shl 1 (2 * b)) p
  else do
    let h := b / 2 + 64
    let w ← shl 1 (2 * b)
    let x ← shl (← drecip (← shr p ↑(b - h)) h) ↑(b - h)
    let e := w - p * x
    let k := b - h + 64
    let t := b + 1 - k
    let u := bitlen e - k
    let y := x + (← shr ((← shr x t) * (← shr e u)) (2 * b - t - u))
    let r := w - p * y
    if r < 0 then return y - (← quot (p - r - 1) p) else return y + (← quot r p)
  termination_by b
  decreasing_by omega

/-! ## Levels -/

/-- `[r^k bits inv k]`. -/
structure Level where
  p : ℤ
  bits : ℕ
  inv : ℤ
  k : ℕ
  deriving DecidableEq, Repr

/-- `lay`: the reciprocal of a level, where it is long. -/
def lay (l : Level) : Option Level :=
  if 8192 < l.bits then do return { l with inv := ← drecip l.p l.bits }
  else some { l with inv := 0 }

/-- `go` of `dlevels`: the power is squared while it fits. A power of the base is less than its
square. -/
def levelsFrom (n : ℤ) (nb : ℕ) (p : ℤ) (k : ℕ) (acc : List Level) : Option (List Level) :=
  let b := bitlen p
  let top := do return ⟨p, b, 0, k⟩ :: (← acc.mapM lay)
  if nb ≤ 2 * b - 2 then top
  else
    let pp := p * p
    if n < pp then top
    else if _h : p < pp then levelsFrom n nb pp (2 * k) (⟨p, b, 0, k⟩ :: acc)
    else none
  termination_by (n - p).toNat
  decreasing_by omega

/-- `p0` of `dlevels`: the largest power of the base a charm holds. -/
def levelsUp (r : Base) (n : ℤ) (nb : ℕ) (p : ℤ) (k : ℕ) : Option (List Level) :=
  if _h : p * r.val < 2 ^ 62 then
    if _hp : p < p * r.val then levelsUp r n nb (p * r.val) (k + 1) else none
  else levelsFrom n nb p k []
  termination_by (2 ^ 62 - p).toNat
  decreasing_by omega

/-- `dlevels`. -/
def dlevels (r : Base) (n : ℤ) : Option (List Level) := levelsUp r n (bitlen n) r.val 1

/-! ## Division -/

/-- `adj`, for a positive `p`. -/
def adj (p q r : ℤ) : ℤ × ℤ :=
  if _h : 0 < p then
    if r < 0 then adj p (q - 1) (r + p)
    else if p ≤ r then adj p (q + 1) (r - p)
    else (q, r)
  else (q, r)
  termination_by (if r < 0 then -r else if p ≤ r then r else 0).toNat
  decreasing_by
    · split_ifs <;> omega
    · split_ifs <;> omega

/-- `ddiv`: the quotient and the rest of `x` by `p`, of `b` bits and with the reciprocal `inv` or
none. Each call gives the next one a reciprocal. -/
def ddiv : ℕ → ℤ → ℤ → ℕ → ℤ → Option (ℤ × ℤ)
  | 0, _, _, _, _ => none
  | fuel + 1, x, p, b, inv =>
      let m : ℤ := bitlen x - b + 1
      let estimate : Option ℤ :=
        if inv ≠ 0 then do
          let s := max 0 (b + 1 - m - 64)
          shr ((← shr x (b - 1)) * (← shr inv s)) (b + 1 - s)
        else if 0 < b - m - 64 then do
          let s := b - m - 64
          let ph ← shr p s
          let qr ← ddiv fuel (← shr x s) ph (b - s).toNat (← drecip ph (b - s).toNat)
          return qr.1
        else do
          let qr ← ddiv fuel x p b (← drecip p b)
          return qr.1
      if m < 1 then some (0, x)
      else if m < 2048 ∨ b ≤ 8192 then do return (← quot x p, rem x p)
      else do
        let q ← estimate
        return adj p q (x - q * p)

/-! ## The digits by halves -/

/-- `dsay`: the digits of `x`, `w` of them, or as many as it has. -/
def dsay (fuel : ℕ) (r : Base) : List Level → ℤ → ℕ → Option (List ℕ)
  | [], x, w => some (dpad w (dch r x []))
  | l :: ls, x, w =>
      if w = 0 ∧ x < l.p then dsay fuel r ls x 0
      else do
        let qr ← ddiv fuel x l.p l.bits l.inv
        let hi ← dsay fuel r ls qr.1 (if w ≠ 0 then w - l.k else 0)
        let lo ← dsay fuel r ls qr.2 l.k
        return hi ++ lo

/-- `bigdigits`. -/
def bigdigits (fuel : ℕ) (r : Base) (n : ℤ) : Option (List ℕ) := do
  dsay fuel r (← dlevels r n) n 0

end LoveRuntime.Bigdigits
