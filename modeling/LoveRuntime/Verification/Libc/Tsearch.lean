import LoveRuntime.Model.Libc.Tsearch
import Mathlib.Data.List.Induction
import Mathlib.Order.Lattice

/-! The search tree stays ordered and balanced, whatever the calls and whenever the allocator fails. -/

namespace LoveRuntime.Tsearch

variable {K : Type} {f : K → K → ℤ} {k key : K} {l r n : Tn K} {malloc : Option ℕ} {up : Up} {addr : ℕ} {h : ℤ}

/-! ### Nodes in order -/

/-- The nodes from left to right, each with its key. -/
def nodes : Tn K → List (ℕ × K)
  | .null => []
  | .node addr key l r _ => nodes l ++ (addr, key) :: nodes r

@[simp] theorem nodes_null : nodes (.null : Tn K) = [] := rfl

@[simp] theorem nodes_node : nodes (.node addr key l r h) = nodes l ++ (addr, key) :: nodes r := rfl

@[simp] theorem upd_node : upd (.node addr key l r h) = .node addr key l r (max (ht l) (ht r) + 1) := by
  by_cases hlt : ht l > ht r
  case pos => simp only [upd, if_pos hlt, max_eq_left hlt.le]
  case neg => simp only [upd, if_neg hlt, max_eq_right (not_lt.mp hlt)]

@[simp] theorem nodes_rotl (n : Tn K) : nodes (rotl n) = nodes n := by
  fun_cases rotl n <;> simp

@[simp] theorem nodes_rotr (n : Tn K) : nodes (rotr n) = nodes n := by
  fun_cases rotr n <;> simp

@[simp] theorem nodes_bal (n : Tn K) : nodes (bal n) = nodes n := by
  cases n with
  | null => rfl
  | node addr key l r h =>
      simp only [bal, upd_node]
      split_ifs <;> simp

/-! ### Heights -/

def height : Tn K → ℤ
  | .null => 0
  | .node _ _ l r _ => max (height l) (height r) + 1

@[simp] theorem height_null : height (.null : Tn K) = 0 := rfl

@[simp] theorem height_node : height (.node addr key l r h) = max (height l) (height r) + 1 := rfl

theorem height_nonneg (n : Tn K) : 0 ≤ height n := by
  induction n with
  | null => simp
  | node addr key l r h ihl ihr =>
      simp only [height_node]
      omega

/-- Every height field is its node's height, and sibling heights differ by at most one. -/
def Balanced : Tn K → Prop
  | .null => True
  | .node _ _ l r h =>
    Balanced l ∧ Balanced r ∧ h = max (height l) (height r) + 1 ∧ height l ≤ height r + 1 ∧ height r ≤ height l + 1

@[simp] theorem balanced_null : Balanced (.null : Tn K) := trivial

theorem Balanced.ht (hn : Balanced n) : ht n = height n := by
  cases n with
  | null => rfl
  | node addr key l r h => exact hn.2.2.1

theorem balanced_upd (hl : Balanced l) (hr : Balanced r) (hlr : height l ≤ height r + 1)
    (hrl : height r ≤ height l + 1) : Balanced (upd (.node addr key l r h)) := by
  rw [upd_node, hl.ht, hr.ht]
  exact ⟨hl, hr, rfl, hlr, hrl⟩

@[simp] theorem height_upd (n : Tn K) : height (upd n) = height n := by
  cases n with
  | null => rfl
  | node addr key l r h => simp

section Rotations

variable {x y z : Tn K} (addr addr' : ℕ) (key key' : K) (h h' : ℤ)

theorem rotr_balanced (hx : Balanced x) (hy : Balanced y) (hz : Balanced z) (hyz : height y ≤ height z + 1)
    (hzy : height z ≤ height y + 1) (hhigh : height x ≤ max (height y) (height z) + 2)
    (hlow : max (height y) (height z) ≤ height x) :
    Balanced (rotr (.node addr key (.node addr' key' x y h') z h)) ∧
      height (rotr (.node addr key (.node addr' key' x y h') z h)) =
        max (height x) (max (height y) (height z) + 1) + 1 := by
  have hdown : Balanced (upd (.node addr key y z h)) := balanced_upd hy hz hyz hzy
  constructor
  case left =>
    rw [rotr]
    apply balanced_upd hx hdown
    case hlr => rw [height_upd, height_node]; omega
    case hrl => rw [height_upd, height_node]; omega
  case right => rw [rotr, height_upd, height_node, height_upd, height_node]

theorem rotl_balanced (hx : Balanced x) (hy : Balanced y) (hz : Balanced z) (hxy : height x ≤ height y + 1)
    (hyx : height y ≤ height x + 1) (hhigh : height z ≤ max (height x) (height y) + 2)
    (hlow : max (height x) (height y) ≤ height z) :
    Balanced (rotl (.node addr key x (.node addr' key' y z h') h)) ∧
      height (rotl (.node addr key x (.node addr' key' y z h') h)) =
        max (max (height x) (height y) + 1) (height z) + 1 := by
  have hdown : Balanced (upd (.node addr key x y h)) := balanced_upd hx hy hxy hyx
  constructor
  case left =>
    rw [rotl]
    apply balanced_upd hdown hz
    case hlr => rw [height_upd, height_node]; omega
    case hrl => rw [height_upd, height_node]; omega
  case right => rw [rotl, height_upd, height_node, height_upd, height_node]

end Rotations

/-- The result is as high as the higher subtree, or one more; it is one more whenever nothing turns. -/
structure Rebalanced (l r n : Tn K) : Prop where
  balanced : Balanced n
  low : max (height l) (height r) ≤ height n
  high : height n ≤ max (height l) (height r) + 1
  near : height l ≤ height r + 1 → height r ≤ height l + 1 → height n = max (height l) (height r) + 1

/-- A left subtree two above the right one: one turn, or two when it leans right. -/
theorem bal_left (hl : Balanced l) (hr : Balanced r) (hd : height l = height r + 2) :
    Rebalanced l r (rotr (.node addr key (if ht l.right > ht l.left then rotl l else l) r h)) := by
  cases l with
  | null =>
      have := height_nonneg r
      simp only [height_null] at hd
      omega
  | node a k x y g =>
      obtain ⟨hx, hy, -, hxy, hyx⟩ := hl
      simp only [Tn.right, Tn.left, hx.ht, hy.ht, height_node] at hd ⊢
      split
      case isFalse hle =>
        obtain ⟨hbal, hheight⟩ :=
          rotr_balanced addr a key k h g hx hy hr (by omega) (by omega) (by omega) (by omega)
        constructor
        case balanced => exact hbal
        all_goals rw [hheight, height_node]; omega
      case isTrue hlt =>
        cases y with
        | null =>
            have := height_nonneg x
            simp only [height_null] at hlt
            omega
        | node a' k' y z g' =>
            obtain ⟨hy, hz, -, hyz, hzy⟩ := hy
            simp only [height_node] at hd hlt hxy hyx
            have hdown : Balanced (upd (.node a k x y g)) := by
              apply balanced_upd hx hy <;> omega
            obtain ⟨hbal, hheight⟩ :=
              rotr_balanced addr a' key k' h (max (ht (upd (.node a k x y g))) (ht z) + 1) hdown hz hr (by omega)
                (by omega) (by rw [height_upd, height_node]; omega) (by rw [height_upd, height_node]; omega)
            rw [height_upd, height_node] at hheight
            rw [rotl, upd_node]
            constructor
            case balanced => exact hbal
            all_goals rw [hheight]; simp only [height_node]; omega

theorem bal_right (hl : Balanced l) (hr : Balanced r) (hd : height r = height l + 2) :
    Rebalanced l r (rotl (.node addr key l (if ht r.left > ht r.right then rotr r else r) h)) := by
  cases r with
  | null =>
      have := height_nonneg l
      simp only [height_null] at hd
      omega
  | node a k y z g =>
      obtain ⟨hy, hz, -, hyz, hzy⟩ := hr
      simp only [Tn.right, Tn.left, hy.ht, hz.ht, height_node] at hd ⊢
      split
      case isFalse hle =>
        obtain ⟨hbal, hheight⟩ :=
          rotl_balanced addr a key k h g hl hy hz (by omega) (by omega) (by omega) (by omega)
        constructor
        case balanced => exact hbal
        all_goals rw [hheight, height_node]; omega
      case isTrue hlt =>
        cases y with
        | null =>
            have := height_nonneg z
            simp only [height_null] at hlt
            omega
        | node a' k' x y g' =>
            obtain ⟨hx, hy, -, hxy, hyx⟩ := hy
            simp only [height_node] at hd hlt hyz hzy
            have hdown : Balanced (upd (.node a k y z g)) := by
              apply balanced_upd hy hz <;> omega
            obtain ⟨hbal, hheight⟩ :=
              rotl_balanced addr a' key k' h (max (ht x) (ht (upd (.node a k y z g))) + 1) hl hx hdown (by omega)
                (by omega) (by rw [height_upd, height_node]; omega) (by rw [height_upd, height_node]; omega)
            rw [height_upd, height_node] at hheight
            rw [rotr, upd_node]
            constructor
            case balanced => exact hbal
            all_goals rw [hheight]; simp only [height_node]; omega

theorem bal_spec (hl : Balanced l) (hr : Balanced r) (hlr : height l ≤ height r + 2)
    (hrl : height r ≤ height l + 2) : Rebalanced l r (bal (.node addr key l r h)) := by
  simp only [bal, upd_node, hl.ht, hr.ht]
  by_cases hleft : height l - height r > 1
  case pos =>
    rw [if_pos hleft]
    exact bal_left hl hr (by omega)
  case neg =>
    rw [if_neg hleft]
    by_cases hright : height l - height r < -1
    case pos =>
      rw [if_pos hright]
      exact bal_right hl hr (by omega)
    case neg =>
      rw [if_neg hright]
      constructor
      case balanced => exact ⟨hl, hr, rfl, by omega, by omega⟩
      all_goals rw [height_node]
      all_goals omega

theorem bal_self (hn : Balanced n) : bal n = n := by
  cases n with
  | null => rfl
  | node addr key l r h =>
      obtain ⟨hl, hr, rfl, hlr, hrl⟩ := hn
      simp only [bal, upd_node, hl.ht, hr.ht]
      rw [if_neg (by omega), if_neg (by omega)]

/-! ### One level of each call -/

theorem ins_left (hc : f k key < 0) : ins k f malloc (.node addr key l r h) =
    (bal (.node addr key (ins k f malloc l).1 r h), (ins k f malloc l).2) := by
  simp only [ins, if_neg hc.ne, if_pos hc]

theorem ins_right (hc : 0 < f k key) : ins k f malloc (.node addr key l r h) =
    (bal (.node addr key l (ins k f malloc r).1 h), (ins k f malloc r).2) := by
  simp only [ins, if_neg hc.ne', if_neg hc.not_gt]

theorem ins_same (hc : f k key = 0) :
    ins k f malloc (.node addr key l r h) = (.node addr key l r h, some addr) := by
  simp only [ins, if_pos hc]

theorem del_left (hc : f k key < 0) : del k f (.node addr key l r h) up =
    (bal (.node addr key (del k f l (.node addr)).1 r h), (del k f l (.node addr)).2) := by
  simp only [del, if_pos hc]

theorem del_right (hc : 0 < f k key) : del k f (.node addr key l r h) up =
    (bal (.node addr key l (del k f r (.node addr)).1 h), (del k f r (.node addr)).2) := by
  simp only [del, if_neg hc.not_gt, if_pos hc]

/-- The subtrees of a deleted node, joined. -/
def joined : Tn K → Tn K → Tn K
  | .null, r => bal r
  | l, .null => bal l
  | l, r => bal ((dmin r).1.adopt l (dmin r).2)

theorem del_same (hc : f k key = 0) : del k f (.node addr key l r h) up = (joined l r, some up) := by
  simp only [del, hc, lt_irrefl, if_false]
  cases l <;> cases r <;> rfl

/-! ### Balance after each call -/

theorem ins_balanced (hn : Balanced n) :
    Balanced (ins k f malloc n).1 ∧ height n ≤ height (ins k f malloc n).1 ∧
      height (ins k f malloc n).1 ≤ height n + 1 := by
  induction n with
  | null =>
      cases malloc with
      | none => simp [ins]
      | some addr => simp [ins, Balanced]
  | node addr key l r h ihl ihr =>
      obtain ⟨hl, hr, hh, hlr, hrl⟩ := hn
      rcases lt_trichotomy (f k key) 0 with hc | hc | hc
      case inl =>
        obtain ⟨hbal, hlow, hhigh⟩ := ihl hl
        have hspec : Rebalanced _ r (bal (.node addr key (ins k f malloc l).1 r h)) :=
          bal_spec hbal hr (by omega) (by omega)
        obtain ⟨hdone, hlow', hhigh', hnear⟩ := hspec
        rw [ins_left hc, height_node]
        dsimp only
        exact ⟨hdone, by omega, by omega⟩
      case inr.inl =>
        rw [ins_same hc]
        exact ⟨⟨hl, hr, hh, hlr, hrl⟩, le_refl _, Int.le_add_one (le_refl _)⟩
      case inr.inr =>
        obtain ⟨hbal, hlow, hhigh⟩ := ihr hr
        have hspec : Rebalanced l _ (bal (.node addr key l (ins k f malloc r).1 h)) :=
          bal_spec hl hbal (by omega) (by omega)
        obtain ⟨hdone, hlow', hhigh', hnear⟩ := hspec
        rw [ins_right hc, height_node]
        dsimp only
        exact ⟨hdone, by omega, by omega⟩

/-- The least node is taken whole, and what is left is balanced and at most one lower. -/
structure Taken (n : Tn K) : Prop where
  first : ∃ addr key l r h, (dmin n).1 = .node addr key l r h ∧ nodes n = (addr, key) :: nodes (dmin n).2
  balanced : Balanced (dmin n).2
  low : height n ≤ height (dmin n).2 + 1
  high : height (dmin n).2 ≤ height n

theorem dmin_taken (hn : Balanced n) (hne : n ≠ .null) : Taken n := by
  induction n with
  | null => exact absurd rfl hne
  | node addr key l r h ihl ihr =>
      obtain ⟨hl, hr, -, hlr, hrl⟩ := hn
      cases l with
      | null =>
          constructor
          case first => exact ⟨addr, key, .null, r, h, rfl, rfl⟩
          case balanced => exact hr
          all_goals
            have := height_nonneg r
            simp only [dmin, height_node, height_null] at hlr hrl ⊢
            omega
      | node a k x y g =>
          obtain ⟨⟨a', k', x', y', g', hfirst, hnodes⟩, hbal, hlow, hhigh⟩ := ihl hl (by simp)
          have hspec : Rebalanced _ r (bal (.node addr key (dmin (.node a k x y g)).2 r h)) :=
            bal_spec hbal hr (by omega) (by omega)
          obtain ⟨hdone, hlow', hhigh', hnear⟩ := hspec
          constructor
          case first =>
            refine ⟨a', k', x', y', g', hfirst, ?_⟩
            simp only [dmin, nodes_bal]
            rw [nodes_node, hnodes, nodes_node, List.cons_append]
          case balanced => exact hdone
          all_goals
            rw [dmin, height_node]
            dsimp only
            omega

theorem joined_balanced (hl : Balanced l) (hr : Balanced r) (hlr : height l ≤ height r + 1)
    (hrl : height r ≤ height l + 1) : Balanced (joined l r) ∧ max (height l) (height r) ≤ height (joined l r) ∧
      height (joined l r) ≤ max (height l) (height r) + 1 := by
  cases l with
  | null =>
      have := height_nonneg r
      rw [joined, bal_self hr, height_null]
      exact ⟨hr, by omega, by omega⟩
  | node a k x y g =>
      cases r with
      | null =>
          have := height_nonneg (.node a k x y g)
          rw [joined, bal_self hl, height_null]
          · exact ⟨hl, by omega, by omega⟩
          · simp
      | node a' k' y' z g' =>
          obtain ⟨⟨b, kb, lb, rb, hb, hfirst, -⟩, hbal, hlow, hhigh⟩ := dmin_taken hr (by simp)
          rw [joined, hfirst, Tn.adopt]
          · have hspec : Rebalanced _ _ (bal (.node b kb (.node a k x y g) (dmin (.node a' k' y' z g')).2 hb)) :=
              bal_spec hl hbal (by omega) (by omega)
            obtain ⟨hdone, hlow', hhigh', hnear⟩ := hspec
            exact ⟨hdone, by omega, by omega⟩
          all_goals simp

theorem nodes_joined (hr : Balanced r) : nodes (joined l r) = nodes l ++ nodes r := by
  cases l with
  | null => rw [joined, nodes_bal, nodes_null, List.nil_append]
  | node a k x y g =>
      cases r with
      | null =>
          rw [joined, nodes_bal, nodes_null, List.append_nil]
          simp
      | node a' k' y' z g' =>
          obtain ⟨⟨b, kb, lb, rb, hb, hfirst, hnodes⟩, -, -, -⟩ := dmin_taken hr (by simp)
          rw [joined, hfirst, Tn.adopt, nodes_bal, nodes_node, hnodes]
          all_goals simp

theorem del_balanced (hn : Balanced n) :
    Balanced (del k f n up).1 ∧ height n ≤ height (del k f n up).1 + 1 ∧ height (del k f n up).1 ≤ height n := by
  induction n generalizing up with
  | null => simp [del]
  | node addr key l r h ihl ihr =>
      obtain ⟨hl, hr, -, hlr, hrl⟩ := hn
      rw [height_node]
      rcases lt_trichotomy (f k key) 0 with hc | hc | hc
      case inl =>
        obtain ⟨hbal, hlow, hhigh⟩ : Balanced (del k f l (.node addr)).1 ∧ _ ∧ _ := ihl hl
        have hspec : Rebalanced _ r (bal (.node addr key (del k f l (.node addr)).1 r h)) :=
          bal_spec hbal hr (by omega) (by omega)
        obtain ⟨hdone, hlow', hhigh', hnear⟩ := hspec
        rw [del_left hc]
        dsimp only
        exact ⟨hdone, by omega, by omega⟩
      case inr.inl =>
        obtain ⟨hdone, hlow, hhigh⟩ := joined_balanced hl hr hlr hrl
        rw [del_same hc]
        dsimp only
        exact ⟨hdone, by omega, by omega⟩
      case inr.inr =>
        obtain ⟨hbal, hlow, hhigh⟩ : Balanced (del k f r (.node addr)).1 ∧ _ ∧ _ := ihr hr
        have hspec : Rebalanced l _ (bal (.node addr key l (del k f r (.node addr)).1 h)) :=
          bal_spec hl hbal (by omega) (by omega)
        obtain ⟨hdone, hlow', hhigh', hnear⟩ := hspec
        rw [del_right hc]
        dsimp only
        exact ⟨hdone, by omega, by omega⟩

/-! ### Order -/

/-- A comparison orders the keys strictly and totally, up to keys it finds equal. -/
structure StrictTotal (f : K → K → ℤ) : Prop where
  swap : ∀ a b, f a b < 0 ↔ 0 < f b a
  trans : ∀ a b c, f a b < 0 → f b c < 0 → f a c < 0
  same : ∀ a b c, f a b = 0 → f b c < 0 → f a c < 0

namespace StrictTotal

variable {a b c : K}

theorem zero_comm (hf : StrictTotal f) (hab : f a b = 0) : f b a = 0 := by
  have := hf.swap a b
  have := hf.swap b a
  omega

theorem refl (hf : StrictTotal f) (a : K) : f a a = 0 := by
  have := hf.swap a a
  omega

theorem lt_of_lt_of_zero (hf : StrictTotal f) (hab : f a b < 0) (hbc : f b c = 0) : f a c < 0 := by
  rcases lt_trichotomy (f a c) 0 with hac | hac | hac
  case inl => exact hac
  case inr.inl =>
    have hcb := hf.same c a b (hf.zero_comm hac) hab
    have := hf.zero_comm hbc
    omega
  case inr.inr =>
    have hba := hf.same b c a hbc ((hf.swap c a).mpr hac)
    have := (hf.swap a b).mp hab
    omega

theorem zero_trans (hf : StrictTotal f) (hab : f a b = 0) (hbc : f b c = 0) : f a c = 0 := by
  rcases lt_trichotomy (f a c) 0 with hac | hac | hac
  case inl =>
    have := hf.same b a c (hf.zero_comm hab) hac
    omega
  case inr.inl => exact hac
  case inr.inr =>
    have hca := hf.lt_of_lt_of_zero ((hf.swap c a).mpr hac) hab
    have := (hf.swap c b).mp hca
    omega

end StrictTotal

def Ordered (f : K → K → ℤ) (n : Tn K) : Prop := (nodes n).Pairwise (fun x y => f x.2 y.2 < 0)

/-- A key the comparison finds equal to `k` is in the tree. -/
def Has (f : K → K → ℤ) (n : Tn K) (k : K) : Prop := ∃ x ∈ nodes n, f k x.2 = 0

theorem Ordered.left (ho : Ordered f (.node addr key l r h)) : Ordered f l := by
  exact (List.pairwise_append.mp ho).1

theorem Ordered.right (ho : Ordered f (.node addr key l r h)) : Ordered f r := by
  exact (List.pairwise_cons.mp (List.pairwise_append.mp ho).2.1).2

theorem Ordered.below (hf : StrictTotal f) (ho : Ordered f (.node addr key l r h)) (hc : f k key ≤ 0) :
    ∀ x ∈ nodes r, f k x.2 < 0 := by
  intro x hx
  have hkey : f key x.2 < 0 := (List.pairwise_cons.mp (List.pairwise_append.mp ho).2.1).1 x hx
  rcases hc.lt_or_eq with hlt | heq
  case inl => exact hf.trans _ _ _ hlt hkey
  case inr => exact hf.same _ _ _ heq hkey

theorem Ordered.above (hf : StrictTotal f) (ho : Ordered f (.node addr key l r h)) (hc : 0 ≤ f k key) :
    ∀ x ∈ nodes l, 0 < f k x.2 := by
  intro x hx
  have hkey : f x.2 key < 0 := (List.pairwise_append.mp ho).2.2 x hx (addr, key) (by simp)
  apply (hf.swap _ _).mp
  rcases hc.lt_or_eq with hlt | heq
  case inl => exact hf.trans _ _ _ hkey ((hf.swap _ _).mpr hlt)
  case inr => exact hf.lt_of_lt_of_zero hkey (hf.zero_comm heq.symm)

/-! ### Where a key can be -/

section Search

variable {x : ℕ × K}

theorem found_left (hf : StrictTotal f) (ho : Ordered f (.node addr key l r h)) (hc : f k key < 0) :
    x ∈ nodes (.node addr key l r h) ∧ f k x.2 = 0 ↔ x ∈ nodes l ∧ f k x.2 = 0 := by
  rw [nodes_node, List.mem_append, List.mem_cons]
  constructor
  case mp =>
    rintro ⟨hl | rfl | hr, hk⟩
    case inl => exact ⟨hl, hk⟩
    case inr.inl => exact absurd hk hc.ne
    case inr.inr => exact absurd hk (ho.below hf hc.le x hr).ne
  case mpr =>
    rintro ⟨hl, hk⟩
    exact ⟨.inl hl, hk⟩

theorem found_right (hf : StrictTotal f) (ho : Ordered f (.node addr key l r h)) (hc : 0 < f k key) :
    x ∈ nodes (.node addr key l r h) ∧ f k x.2 = 0 ↔ x ∈ nodes r ∧ f k x.2 = 0 := by
  rw [nodes_node, List.mem_append, List.mem_cons]
  constructor
  case mp =>
    rintro ⟨hl | rfl | hr, hk⟩
    case inl => exact absurd hk (ho.above hf hc.le x hl).ne'
    case inr.inl => exact absurd hk hc.ne'
    case inr.inr => exact ⟨hr, hk⟩
  case mpr =>
    rintro ⟨hr, hk⟩
    exact ⟨.inr (.inr hr), hk⟩

theorem found_same (hf : StrictTotal f) (ho : Ordered f (.node addr key l r h)) (hc : f k key = 0) :
    x ∈ nodes (.node addr key l r h) ∧ f k x.2 = 0 ↔ x = (addr, key) := by
  rw [nodes_node, List.mem_append, List.mem_cons]
  constructor
  case mp =>
    rintro ⟨hl | rfl | hr, hk⟩
    case inl => exact absurd hk (ho.above hf hc.ge x hl).ne'
    case inr.inl => rfl
    case inr.inr => exact absurd hk (ho.below hf hc.le x hr).ne
  case mpr =>
    rintro rfl
    exact ⟨.inr (.inl rfl), hc⟩

end Search

/-! ### What each call answers -/

theorem ins_hit (hf : StrictTotal f) (hn : Balanced n) (ho : Ordered f n) {x : ℕ × K}
    (hx : x ∈ nodes n ∧ f k x.2 = 0) : ins k f malloc n = (n, some x.1) := by
  induction n with
  | null => simp at hx
  | node addr key l r h ihl ihr =>
      rcases lt_trichotomy (f k key) 0 with hc | hc | hc
      case inl => rw [ins_left hc, ihl hn.1 ho.left ((found_left hf ho hc).mp hx), bal_self hn]
      case inr.inl =>
        obtain rfl := (found_same hf ho hc).mp hx
        exact ins_same hc
      case inr.inr => rw [ins_right hc, ihr hn.2.1 ho.right ((found_right hf ho hc).mp hx), bal_self hn]

theorem not_has_node (hn : ¬ Has f (.node addr key l r h) k) : ¬ Has f l k ∧ f k key ≠ 0 ∧ ¬ Has f r k := by
  simp only [Has, nodes_node, List.mem_append, List.mem_cons, not_exists, not_and] at *
  exact ⟨fun x hx => hn x (.inl hx), hn _ (.inr (.inl rfl)), fun x hx => hn x (.inr (.inr hx))⟩

theorem ins_failed (hn : Balanced n) (hmiss : ¬ Has f n k) : ins k f none n = (n, none) := by
  induction n with
  | null => rfl
  | node addr key l r h ihl ihr =>
      obtain ⟨hl, hkey, hr⟩ := not_has_node hmiss
      rcases lt_or_gt_of_ne hkey with hc | hc
      case inl => rw [ins_left hc, ihl hn.1 hl, bal_self hn]
      case inr => rw [ins_right hc, ihr hn.2.1 hr, bal_self hn]

/-- The nodes before `k`, and those after it. -/
def before (f : K → K → ℤ) (k : K) (xs : List (ℕ × K)) : List (ℕ × K) := xs.filter (fun x => 0 < f k x.2)

def behind (f : K → K → ℤ) (k : K) (xs : List (ℕ × K)) : List (ℕ × K) := xs.filter (fun x => f k x.2 < 0)

/-- A new key's node stands between the smaller keys and the greater ones. -/
theorem ins_new {a : ℕ} (hf : StrictTotal f) (ho : Ordered f n) (hmiss : ¬ Has f n k) :
    (ins k f (some a) n).2 = some a ∧
      nodes (ins k f (some a) n).1 = before f k (nodes n) ++ (a, k) :: behind f k (nodes n) := by
  induction n with
  | null => simp [ins, before, behind]
  | node addr key l r h ihl ihr =>
      obtain ⟨hl, hkey, hr⟩ := not_has_node hmiss
      rcases lt_or_gt_of_ne hkey with hc | hc
      case inl =>
        obtain ⟨hhit, hnodes⟩ := ihl ho.left hl
        have hside := ho.below hf hc.le
        have hnone : before f k (nodes r) = [] := by
          apply List.filter_eq_nil_iff.mpr
          intro x hx
          simpa using (hside x hx).le
        have hall : behind f k (nodes r) = nodes r := by
          apply List.filter_eq_self.mpr
          intro x hx
          simpa using hside x hx
        rw [ins_left hc]
        constructor
        case left => exact hhit
        case right =>
          rw [nodes_bal, nodes_node, hnodes, nodes_node]
          simp only [before, behind, List.filter_append, List.filter_cons] at *
          simp [hnone, hall, hc, hc.not_gt]
      case inr =>
        obtain ⟨hhit, hnodes⟩ := ihr ho.right hr
        have hside := ho.above hf hc.le
        have hnone : behind f k (nodes l) = [] := by
          apply List.filter_eq_nil_iff.mpr
          intro x hx
          simpa using (hside x hx).le
        have hall : before f k (nodes l) = nodes l := by
          apply List.filter_eq_self.mpr
          intro x hx
          simpa using hside x hx
        rw [ins_right hc]
        constructor
        case left => exact hhit
        case right =>
          rw [nodes_bal, nodes_node, hnodes, nodes_node]
          simp only [before, behind, List.filter_append, List.filter_cons] at *
          simp [hnone, hall, hc, hc.not_gt]

/-- What is deleted is the one node of the key. -/
theorem nodes_del (hf : StrictTotal f) (hn : Balanced n) (ho : Ordered f n) :
    nodes (del k f n up).1 = (nodes n).filter (fun x => f k x.2 ≠ 0) := by
  induction n generalizing up with
  | null => rfl
  | node addr key l r h ihl ihr =>
      have hleft : 0 ≤ f k key → (nodes l).filter (fun x => f k x.2 ≠ 0) = nodes l := by
        intro hc
        apply List.filter_eq_self.mpr
        intro x hx
        simpa using (ho.above hf hc x hx).ne'
      have hright : f k key ≤ 0 → (nodes r).filter (fun x => f k x.2 ≠ 0) = nodes r := by
        intro hc
        apply List.filter_eq_self.mpr
        intro x hx
        simpa using (ho.below hf hc x hx).ne
      rw [nodes_node, List.filter_append, List.filter_cons]
      rcases lt_trichotomy (f k key) 0 with hc | hc | hc
      case inl =>
        rw [del_left hc, nodes_bal, nodes_node, ihl hn.1 ho.left, hright hc.le, if_pos]
        simpa using hc.ne
      case inr.inl =>
        rw [del_same hc, nodes_joined hn.2.1, hleft hc.ge, hright hc.le, if_neg]
        simpa using hc
      case inr.inr =>
        rw [del_right hc, nodes_bal, nodes_node, ihr hn.2.1 ho.right, hleft hc.le, if_pos]
        simpa using hc.ne'

theorem del_miss (hf : StrictTotal f) (ho : Ordered f n) : (del k f n up).2 = none ↔ ¬ Has f n k := by
  induction n generalizing up with
  | null => simp [del, Has]
  | node addr key l r h ihl ihr =>
      rcases lt_trichotomy (f k key) 0 with hc | hc | hc
      case inl =>
        rw [del_left hc, ihl ho.left]
        exact not_congr (exists_congr fun x => (found_left hf ho hc).symm)
      case inr.inl =>
        rw [del_same hc]
        have hhas : Has f (.node addr key l r h) k := ⟨_, (found_same hf ho hc).mpr rfl⟩
        simpa using hhas
      case inr.inr =>
        rw [del_right hc, ihr ho.right]
        exact not_congr (exists_congr fun x => (found_right hf ho hc).symm)

theorem find_iff (hf : StrictTotal f) (ho : Ordered f n) {a : ℕ} :
    find k f n = some a ↔ ∃ key, (a, key) ∈ nodes n ∧ f k key = 0 := by
  induction n with
  | null => simp [find]
  | node addr key l r h ihl ihr =>
      rw [find]
      rcases lt_trichotomy (f k key) 0 with hc | hc | hc
      case inl =>
        rw [if_neg hc.ne, if_pos hc, ihl ho.left]
        exact exists_congr fun key' => (found_left hf ho hc).symm
      case inr.inl =>
        rw [if_pos hc]
        constructor
        case mp =>
          rintro ⟨rfl⟩
          exact ⟨key, (found_same hf ho hc).mpr rfl⟩
        case mpr =>
          rintro ⟨key', hx⟩
          rw [(Prod.mk.inj ((found_same hf ho hc).mp hx)).1]
      case inr.inr =>
        rw [if_neg hc.ne', if_neg hc.not_gt, ihr ho.right]
        exact exists_congr fun key' => (found_right hf ho hc).symm

/-! ### Histories -/

/-- The call inserts a key equal to `k`, if none is there: it searches for one and the allocator has room. -/
def Op.Inserts (f : K → K → ℤ) (k : K) : Op K → Prop
  | .tsearch k' (some _) => f k k' = 0
  | _ => False

def Op.Deletes (f : K → K → ℤ) (k : K) : Op K → Prop
  | .tdelete k' => f k k' = 0
  | _ => False

/-- `k` was inserted and has not been deleted since. -/
def Live (f : K → K → ℤ) (ops : List (Op K)) (k : K) : Prop :=
  ∃ earlier op later, ops = earlier ++ op :: later ∧ op.Inserts f k ∧ ∀ op' ∈ later, ¬ op'.Deletes f k

theorem live_snoc {ops : List (Op K)} {op : Op K} :
    Live f (ops ++ [op]) k ↔ op.Inserts f k ∨ Live f ops k ∧ ¬ op.Deletes f k := by
  constructor
  case mp =>
    rintro ⟨earlier, op', later, heq, hins, hdel⟩
    rcases List.eq_nil_or_concat later with rfl | ⟨later, last, rfl⟩
    case inl =>
      obtain ⟨-, hop⟩ := List.append_inj' heq rfl
      obtain rfl := List.singleton_inj.mp hop
      exact .inl hins
    case inr =>
      have hsnoc : ops ++ [op] = (earlier ++ op' :: later) ++ [last] := by simpa using heq
      obtain ⟨hops, hop⟩ := List.append_inj' hsnoc rfl
      obtain rfl := List.singleton_inj.mp hop
      apply Or.inr
      constructor
      case left => exact ⟨earlier, op', later, hops, hins, fun op'' hmem => hdel op'' (by simp [hmem])⟩
      case right => exact hdel op (by simp)
  case mpr =>
    rintro (hins | ⟨⟨earlier, op', later, rfl, hins, hdel⟩, hlast⟩)
    case inl => exact ⟨ops, op, [], rfl, hins, by simp⟩
    case inr =>
      refine ⟨earlier, op', later ++ [op], by simp, hins, ?_⟩
      intro op'' hmem
      rcases List.mem_append.mp hmem with hmem | hmem
      case inl => exact hdel op'' hmem
      case inr =>
        obtain rfl := List.mem_singleton.mp hmem
        exact hlast

/-- One call keeps the tree, and does to the keys present what its name says. -/
structure Steps (f : K → K → ℤ) (op : Op K) (n m : Tn K) : Prop where
  balanced : Balanced m
  ordered : Ordered f m
  has : ∀ k, Has f m k ↔ op.Inserts f k ∨ Has f n k ∧ ¬ op.Deletes f k

theorem Has.congr (hf : StrictTotal f) {k' : K} (hk : f k k' = 0) (hhas : Has f n k') : Has f n k := by
  obtain ⟨x, hx, hzero⟩ := hhas
  exact ⟨x, hx, hf.zero_trans hk hzero⟩

theorem ordered_new {xs : List (ℕ × K)} (hf : StrictTotal f) (a : ℕ) (k : K)
    (ho : xs.Pairwise (fun x y => f x.2 y.2 < 0)) :
    (before f k xs ++ (a, k) :: behind f k xs).Pairwise (fun x y => f x.2 y.2 < 0) := by
  have hbefore : ∀ x ∈ before f k xs, f x.2 k < 0 := by
    intro x hx
    have hpos := (List.mem_filter.mp hx).2
    exact (hf.swap _ _).mpr (of_decide_eq_true hpos)
  have hbehind : ∀ x ∈ behind f k xs, f k x.2 < 0 := by
    intro x hx
    exact of_decide_eq_true (List.mem_filter.mp hx).2
  apply List.pairwise_append.mpr
  refine ⟨ho.filter _, List.pairwise_cons.mpr ⟨hbehind, ho.filter _⟩, ?_⟩
  intro x hx y hy
  rcases List.mem_cons.mp hy with rfl | hy
  case inl => exact hbefore x hx
  case inr => exact hf.trans _ _ _ (hbefore x hx) (hbehind y hy)

theorem steps_tsearch (hf : StrictTotal f) (hn : Balanced n) (ho : Ordered f n) :
    Steps f (.tsearch k malloc) n (ins k f malloc n).1 := by
  by_cases hhas : Has f n k
  case pos =>
    obtain ⟨x, hx⟩ := hhas
    rw [ins_hit hf hn ho hx]
    refine ⟨hn, ho, fun k' => ?_⟩
    have hpresent : Has f n k := ⟨x, hx⟩
    cases malloc with
    | none => simp [Op.Inserts, Op.Deletes]
    | some a =>
        simp only [Op.Inserts, Op.Deletes, not_false_eq_true, and_true]
        exact ⟨.inr, fun hor => hor.elim (fun hk => hpresent.congr hf hk) id⟩
  case neg =>
    cases malloc with
    | none =>
        rw [ins_failed hn hhas]
        exact ⟨hn, ho, fun k' => by simp [Op.Inserts, Op.Deletes]⟩
    | some a =>
        obtain ⟨-, hnodes⟩ := ins_new (a := a) hf ho hhas
        refine ⟨(ins_balanced hn).1, ?_, fun k' => ?_⟩
        · rw [Ordered, hnodes]
          exact ordered_new hf a k ho
        · have hmem : ∀ x, x ∈ nodes n → x ∈ before f k (nodes n) ∨ x ∈ behind f k (nodes n) := by
            intro x hx
            rcases lt_or_gt_of_ne (fun hzero => hhas ⟨x, hx, hzero⟩ : f k x.2 ≠ 0) with hc | hc
            case inl => exact .inr (List.mem_filter.mpr ⟨hx, decide_eq_true hc⟩)
            case inr => exact .inl (List.mem_filter.mpr ⟨hx, decide_eq_true hc⟩)
          simp only [Has, hnodes, List.mem_append, List.mem_cons, Op.Inserts, Op.Deletes, not_false_eq_true, and_true]
          constructor
          case mp =>
            rintro ⟨x, hx | rfl | hx, hk⟩
            case inl => exact .inr ⟨x, (List.mem_filter.mp hx).1, hk⟩
            case inr.inl => exact .inl hk
            case inr.inr => exact .inr ⟨x, (List.mem_filter.mp hx).1, hk⟩
          case mpr =>
            rintro (hk | ⟨x, hx, hk⟩)
            case inl => exact ⟨_, .inr (.inl rfl), hk⟩
            case inr => exact ⟨x, (hmem x hx).imp id .inr, hk⟩

theorem steps_tdelete (hf : StrictTotal f) (hn : Balanced n) (ho : Ordered f n) :
    Steps f (.tdelete k) n (del k f n up).1 := by
  have hnodes : nodes (del k f n up).1 = _ := nodes_del hf hn ho
  refine ⟨(del_balanced hn).1, ?_, fun k' => ?_⟩
  · rw [Ordered, hnodes]
    exact ho.filter _
  · simp only [Has, hnodes, List.mem_filter, Op.Inserts, Op.Deletes, false_or, decide_eq_true_eq]
    constructor
    case mp =>
      rintro ⟨x, ⟨hx, hne⟩, hk⟩
      refine ⟨⟨x, hx, hk⟩, fun hzero => hne ?_⟩
      exact hf.zero_trans (hf.zero_comm hzero) hk
    case mpr =>
      rintro ⟨⟨x, hx, hk⟩, hne⟩
      refine ⟨x, ⟨hx, fun hzero => hne ?_⟩, hk⟩
      exact hf.zero_trans hk (hf.zero_comm hzero)

theorem tdelete_some : tdelete k (some n) f = (some (del k f n .slot).1, (del k f n .slot).2) := by
  cases n <;> rfl

/-- What a history leaves in the slot. -/
structure Kept (f : K → K → ℤ) (ops : List (Op K)) (n : Tn K) : Prop where
  balanced : Balanced n
  ordered : Ordered f n
  has : ∀ k, Has f n k ↔ Live f ops k

theorem kept_step (hf : StrictTotal f) {ops : List (Op K)} (hn : Kept f ops n) (op : Op K) :
    ∃ m, step f (some n) op = some m ∧ Kept f (ops ++ [op]) m := by
  have hstep : ∃ m, step f (some n) op = some m ∧ Steps f op n m := by
    cases op with
    | tsearch k malloc => exact ⟨_, rfl, steps_tsearch hf hn.balanced hn.ordered⟩
    | tfind k => exact ⟨n, rfl, hn.balanced, hn.ordered, fun k' => by simp [Op.Inserts, Op.Deletes]⟩
    | tdelete k =>
        refine ⟨(del k f n .slot).1, ?_, steps_tdelete hf hn.balanced hn.ordered⟩
        rw [step, tdelete_some]
  obtain ⟨m, heq, hm⟩ := hstep
  refine ⟨m, heq, hm.balanced, hm.ordered, fun k => ?_⟩
  rw [hm.has, hn.has, live_snoc]

theorem kept_after (hf : StrictTotal f) (ops : List (Op K)) : ∃ n, after f ops = some n ∧ Kept f ops n := by
  induction ops using List.reverseRecOn with
  | nil =>
      refine ⟨.null, rfl, balanced_null, List.Pairwise.nil, fun k => ?_⟩
      simp [Has, Live]
  | append_singleton ops op ih =>
      obtain ⟨n, heq, hn⟩ := ih
      obtain ⟨m, hm, hkept⟩ := kept_step hf hn op
      refine ⟨m, ?_, hkept⟩
      rw [after, List.foldl_append, ← after, heq, List.foldl_cons, List.foldl_nil, hm]

/-- After every history the tree is ordered and balanced, it holds the keys inserted and not deleted since, and
every call answers by them. -/
theorem history_keeps_tree (hf : StrictTotal f) (ops : List (Op K)) :
    ∃ n, after f ops = some n ∧ Ordered f n ∧ Balanced n ∧ (∀ k, Has f n k ↔ Live f ops k) ∧
      (∀ k malloc x, x ∈ nodes n ∧ f k x.2 = 0 → tsearch k (some n) f malloc = (some n, some x.1)) ∧
      (∀ k, ¬ Has f n k → tsearch k (some n) f none = (some n, none)) ∧
      (∀ k a, ¬ Has f n k → (tsearch k (some n) f (some a)).2 = some a) ∧
      (∀ k a, tfind k (some n) f = some a ↔ ∃ key, (a, key) ∈ nodes n ∧ f k key = 0) ∧
      (∀ k, (tdelete k (some n) f).2 = none ↔ ¬ Has f n k) := by
  obtain ⟨n, heq, hbal, ho, hhas⟩ := kept_after hf ops
  refine ⟨n, heq, ho, hbal, hhas, ?_, ?_, ?_, fun k a => find_iff hf ho, fun k => ?_⟩
  · intro k malloc x hx
    rw [tsearch, ins_hit hf hbal ho hx]
  · intro k hmiss
    rw [tsearch, ins_failed hbal hmiss]
  · intro k a hmiss
    exact (ins_new hf ho hmiss).1
  · rw [tdelete_some]
    exact del_miss hf ho

theorem history_keeps_tree_five :
    ∃ n, after (fun a b : ℤ => a - b)
        [.tsearch 1 (some 16), .tsearch 2 (some 32), .tsearch 3 (some 48), .tsearch 4 none, .tdelete 1] = some n ∧
      Ordered (fun a b : ℤ => a - b) n ∧ Balanced n ∧ nodes n = [(32, 2), (48, 3)] := by
  have hf : StrictTotal (fun a b : ℤ => a - b) := by
    constructor <;> intros <;> omega
  obtain ⟨n, heq, ho, hbal, -⟩ := history_keeps_tree hf
    [.tsearch 1 (some 16), .tsearch 2 (some 32), .tsearch 3 (some 48), .tsearch 4 none, .tdelete 1]
  refine ⟨n, heq, ho, hbal, ?_⟩
  obtain rfl := Option.some.inj heq
  decide

end LoveRuntime.Tsearch
