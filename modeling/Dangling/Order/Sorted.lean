/-!
# Order — Sorted

Lists in ascending order: sets without repetition (`insert`, `union`, `ofList`) and stable sorting
(`sortBy`).  A comparison that is a linear order makes each set one list.
-/

namespace Dangling.Sorted

variable {α : Type}

/-- The ascending list `xs` with `x` in its place; what is there already stays. -/
def insert (cmp : α → α → Ordering) (x : α) : List α → List α
  | [] => [x]
  | y :: ys =>
    match cmp x y with
    | .lt => x :: y :: ys
    | .eq => y :: ys
    | .gt => y :: insert cmp x ys

/-- The ascending list `xs` with everything of `ys` in its place. -/
def union (cmp : α → α → Ordering) (xs ys : List α) : List α :=
  ys.foldl (fun zs y => insert cmp y zs) xs

/-- The members of a list in ascending order, each once. -/
def ofList (cmp : α → α → Ordering) (xs : List α) : List α := union cmp [] xs

/-- `x` before the first element that it does not come after. -/
def insertBy (le : α → α → Bool) (x : α) : List α → List α
  | [] => [x]
  | y :: ys => if le x y then x :: y :: ys else y :: insertBy le x ys

/-- The list in ascending order; what compares equal keeps its order. -/
def sortBy (le : α → α → Bool) (xs : List α) : List α := xs.foldr (insertBy le) []

/-- Comparison of lists, item by item; a list comes before its continuations. -/
def lexicographic (cmp : α → α → Ordering) : List α → List α → Ordering
  | [], [] => .eq
  | [], _ :: _ => .lt
  | _ :: _, [] => .gt
  | x :: xs, y :: ys => (cmp x y).then (lexicographic cmp xs ys)

/-- Comparison of texts by code points. -/
def text (s t : String) : Ordering := lexicographic (compareOn Char.toNat) s.toList t.toList

/-- Texts in ascending order. -/
def sortTexts (ss : List String) : List String := sortBy (fun s t => (text s t).isLE) ss

end Dangling.Sorted
