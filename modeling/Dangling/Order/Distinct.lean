/-!
# Order — Distinct

Lists in which no two members have the same key, made by adding members at the end.  A member whose
key is taken is refused, or takes the place of the one that has it.
-/

namespace Dangling

variable {α β : Type}

/-- The list with `x` in it: in the place of a member of its key, or at the end. -/
def putBy [DecidableEq β] (key : α → β) (x : α) : List α → List α
  | [] => [x]
  | y :: ys => if key y = key x then x :: ys else y :: putBy key x ys

/-- Keys keep their places, and a new one comes last. -/
theorem map_putBy [DecidableEq β] (key : α → β) (x : α) (ys : List α) :
    (putBy key x ys).map key =
      if key x ∈ ys.map key then ys.map key else ys.map key ++ [key x] := by
  induction ys with
  | nil => rfl
  | cons y ys ih =>
      rw [putBy]
      by_cases hy : key y = key x
      · rw [if_pos hy, List.map_cons, List.map_cons, hy, if_pos (.head _)]
      · rw [if_neg hy, List.map_cons, ih, List.map_cons]
        by_cases hx : key x ∈ ys.map key
        · rw [if_pos hx, if_pos (.tail _ hx)]
        · rw [if_neg hx, if_neg fun h => (List.mem_cons.mp h).elim (hy ·.symm) hx]
          rfl

/-- A list with a new member at the end has different members, if it had before. -/
theorem nodup_push {xs : List β} (h : xs.Nodup) {x : β} (hx : x ∉ xs) : (xs ++ [x]).Nodup := by
  rw [List.nodup_append]
  refine ⟨h, List.pairwise_singleton _ _, fun a ha b hb => ?_⟩
  obtain rfl : b = x := List.mem_singleton.mp hb
  exact fun e => hx (e ▸ ha)

/-- A list whose members have different keys. -/
abbrev DistinctBy (key : α → β) := { xs : List α // (xs.map key).Nodup }

namespace DistinctBy

variable {key : α → β}

/-- No members. -/
def empty : DistinctBy key := ⟨[], .nil⟩

/-- One more member; none if its key is taken. -/
def push? [DecidableEq β] (xs : DistinctBy key) (x : α) : Option (DistinctBy key) :=
  if h : key x ∈ xs.1.map key then none
  else
    some ⟨xs.1 ++ [x], by
      rw [List.map_append]
      exact nodup_push xs.2 h⟩

/-- One more member, or one in the place of another of its key. -/
def put [DecidableEq β] (xs : DistinctBy key) (x : α) : DistinctBy key :=
  ⟨putBy key x xs.1, by
    rw [map_putBy]
    split
    case isTrue => exact xs.2
    case isFalse h => exact nodup_push xs.2 h⟩

/-- The members of a list, the last of each key in the place of the first. -/
def ofList [DecidableEq β] (xs : List α) : DistinctBy key := xs.foldl put empty

end DistinctBy

end Dangling
