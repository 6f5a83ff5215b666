import Mathlib.Data.Tree.Basic
import Mathlib.Data.List.Perm.Subperm

/-! Search trees that take a value at the root: the tree is split around it, down one path, and the
two parts become its sides. The walk may stop at a value that counts as equal, whose sides are then
the new root's, or when its fuel is out, and drops what it does not reach. -/

namespace SplitTree

open BinaryTree

variable {α : Type*}

def toList : BinaryTree α → List α
  | .nil => []
  | .node a l r => a :: (toList l ++ toList r)

@[simp] theorem toList_nil : toList (.nil : BinaryTree α) = [] := rfl

@[simp] theorem toList_node (a : α) (l r : BinaryTree α) : toList (.node a l r) = a :: (toList l ++ toList r) := rfl

/-- The left of a node are under it, the right over it. -/
def Ordered (le : α → α → Prop) : BinaryTree α → Prop
  | .nil => True
  | .node a l r => (∀ x ∈ toList l, le x a) ∧ (∀ x ∈ toList r, le a x) ∧ Ordered le l ∧ Ordered le r

theorem Ordered.mono {le le' : α → α → Prop} {t : BinaryTree α} (h : Ordered le t)
    (hle : ∀ x y, le x y → le' x y) : Ordered le' t := by
  induction t with
  | nil => trivial
  | node a l r ihl ihr =>
      obtain ⟨hl, hr, hol, hor⟩ := h
      exact ⟨fun x hx => hle x a (hl x hx), fun x hx => hle a x (hr x hx), ihl hol, ihr hor⟩

/-! ### Pruning -/

/-- The tree without the nodes that are gone, and what hangs from them. -/
def prune (gone : α → Bool) : BinaryTree α → BinaryTree α
  | .nil => .nil
  | .node a l r => if gone a then .nil else .node a (prune gone l) (prune gone r)

theorem toList_prune (gone : α → Bool) (t : BinaryTree α) : (toList (prune gone t)).Sublist (toList t) := by
  induction t with
  | nil => exact List.Sublist.refl _
  | node a l r ihl ihr =>
      rw [prune]
      split
      · exact List.nil_sublist _
      · exact (ihl.append ihr).cons_cons a

theorem Ordered.prune {le : α → α → Prop} {t : BinaryTree α} (h : Ordered le t) (gone : α → Bool) :
    Ordered le (prune gone t) := by
  induction t with
  | nil => trivial
  | node a l r ihl ihr =>
      obtain ⟨hl, hr, hol, hor⟩ := h
      rw [SplitTree.prune]
      split
      · trivial
      · exact ⟨fun x hx => hl x ((toList_prune gone l).subset hx),
          fun x hx => hr x ((toList_prune gone r).subset hx), ihl hol, ihr hor⟩

/-! ### Splitting -/

/-- The part under the new root and the part over it: `cmp` says on which side a node stands. -/
def split (cmp : α → Ordering) : ℕ → BinaryTree α → BinaryTree α × BinaryTree α
  | 0, _ => (.nil, .nil)
  | _ + 1, .nil => (.nil, .nil)
  | n + 1, .node a l r =>
      match cmp a with
      | .eq => (l, r)
      | .lt => (.node a l (split cmp n r).1, (split cmp n r).2)
      | .gt => ((split cmp n l).1, .node a (split cmp n l).2 r)

theorem toList_split (cmp : α → Ordering) (n : ℕ) (t : BinaryTree α) :
    (toList (split cmp n t).1 ++ toList (split cmp n t).2).Subperm (toList t) := by
  induction n generalizing t with
  | zero => exact List.nil_subperm
  | succ n ih =>
      cases t with
      | nil => exact List.nil_subperm
      | node a l r =>
          rw [split]
          cases cmp a with
          | eq => exact ((List.sublist_cons_self a _).subperm)
          | lt =>
              simp only [toList_node, List.cons_append, List.append_assoc, List.subperm_cons]
              exact (List.subperm_append_left _).mpr (ih r)
          | gt =>
              simp only [toList_node]
              refine (List.Perm.subperm List.perm_middle).trans ?_
              rw [List.subperm_cons, ← List.append_assoc]
              exact (List.subperm_append_right _).mpr (ih l)

theorem mem_split {cmp : α → Ordering} {n : ℕ} {t : BinaryTree α} {x : α}
    (h : x ∈ toList (split cmp n t).1 ∨ x ∈ toList (split cmp n t).2) : x ∈ toList t :=
  (toList_split cmp n t).subset (List.mem_append.mpr h)

/-- Each part is ordered, and on its side of the new root `p`. -/
theorem Ordered.split {le : α → α → Prop} {cmp : α → Ordering} {p : α} {t : BinaryTree α}
    (h : Ordered le t) (htrans : ∀ x y z, le x y → le y z → le x z)
    (hlt : ∀ x ∈ toList t, cmp x = .lt → le x p) (hgt : ∀ x ∈ toList t, cmp x = .gt → le p x)
    (heq : ∀ x ∈ toList t, cmp x = .eq → le x p ∧ le p x) (n : ℕ) :
    Ordered le (.node p (split cmp n t).1 (split cmp n t).2) := by
  induction n generalizing t with
  | zero => exact ⟨by simp [SplitTree.split], by simp [SplitTree.split], trivial, trivial⟩
  | succ n ih =>
      cases t with
      | nil => exact ⟨by simp [SplitTree.split], by simp [SplitTree.split], trivial, trivial⟩
      | node a l r =>
          obtain ⟨hl, hr, hol, hor⟩ := h
          have ha : a ∈ toList (.node a l r) := List.mem_cons_self
          have hsl : ∀ x ∈ toList l, x ∈ toList (.node a l r) := by simp +contextual
          have hsr : ∀ x ∈ toList r, x ∈ toList (.node a l r) := by simp +contextual
          rw [SplitTree.split]
          cases hc : cmp a with
          | eq =>
              obtain ⟨hap, hpa⟩ := heq a ha hc
              exact ⟨fun x hx => htrans x a p (hl x hx) hap, fun x hx => htrans p a x hpa (hr x hx), hol, hor⟩
          | lt =>
              have hap := hlt a ha hc
              obtain ⟨hlow, hhigh, holow, hohigh⟩ := ih hor (fun x hx => hlt x (hsr x hx))
                (fun x hx => hgt x (hsr x hx)) fun x hx => heq x (hsr x hx)
              refine ⟨?_, hhigh, ⟨hl, fun x hx => hr x (mem_split (.inl hx)), hol, holow⟩, hohigh⟩
              intro x hx
              simp only [toList_node, List.mem_cons, List.mem_append] at hx
              rcases hx with rfl | hx | hx
              · exact hap
              · exact htrans x a p (hl x hx) hap
              · exact hlow x hx
          | gt =>
              have hpa := hgt a ha hc
              obtain ⟨hlow, hhigh, holow, hohigh⟩ := ih hol (fun x hx => hlt x (hsl x hx))
                (fun x hx => hgt x (hsl x hx)) fun x hx => heq x (hsl x hx)
              refine ⟨hlow, ?_, holow, ⟨fun x hx => hl x (mem_split (.inr hx)), hr, hohigh, hor⟩⟩
              intro x hx
              simp only [toList_node, List.mem_cons, List.mem_append] at hx
              rcases hx with rfl | hx | hx
              · exact hpa
              · exact hhigh x hx
              · exact htrans p a x hpa (hr x hx)

end SplitTree
