import Ordinum.Linked.Chain

namespace linked

variable {α : Type*} {next next' : α → Option α} {start stop : Option α} {xs ys : List α}

/-- The nodes met from `start` along `next` before `stop` is reached. -/
def IsSegment (next : α → Option α) : Option α → List α → Option α → Prop
  | start, [], stop => start = stop
  | start, x :: xs, stop => start = some x ∧ IsSegment next (next x) xs stop

theorem isSegment_none : IsSegment next start xs none ↔ IsChain next start xs := by
  induction xs generalizing start with
  | nil => exact Iff.rfl
  | cons x xs ih => exact and_congr_right fun _ => ih

namespace IsSegment

theorem append {middle : Option α} (hxs : IsSegment next start xs middle)
    (hys : IsSegment next middle ys stop) : IsSegment next start (xs ++ ys) stop := by
  induction xs generalizing start with
  | nil =>
    obtain rfl : start = middle := hxs
    exact hys
  | cons x xs ih => exact ⟨hxs.1, ih hxs.2⟩

/-- A segment of one more node. -/
theorem snoc {x : α} (hxs : IsSegment next start xs (some x)) :
    IsSegment next start (xs ++ [x]) (next x) :=
  hxs.append ⟨rfl, rfl⟩

theorem append_chain (hxs : IsSegment next start xs stop) (hys : IsChain next stop ys) :
    IsChain next start (xs ++ ys) :=
  isSegment_none.mp (hxs.append (isSegment_none.mpr hys))

/-- A chain begins with every segment from its start. -/
theorem chain_rest {zs : List α} (hxs : IsSegment next start xs stop)
    (hzs : IsChain next start zs) : ∃ rest, zs = xs ++ rest ∧ IsChain next stop rest := by
  induction xs generalizing start zs with
  | nil =>
    obtain rfl : start = stop := hxs
    exact ⟨zs, rfl, hzs⟩
  | cons x xs ih =>
    cases zs with
    | nil =>
      obtain rfl : start = none := hzs
      cases hxs.1
    | cons z zs =>
      obtain rfl : x = z := Option.some.inj (hxs.1.symm.trans hzs.1)
      obtain ⟨rest, rfl, hrest⟩ := ih hxs.2 hzs.2
      exact ⟨rest, rfl, hrest⟩

/-- The first part of a chain. -/
theorem of_chain (hchain : IsChain next start (xs ++ ys)) :
    IsSegment next start xs ys.head? := by
  induction xs generalizing start with
  | nil => exact hchain.head?
  | cons x xs ih => exact ⟨hchain.1, ih hchain.2⟩

theorem head? (hne : xs ≠ []) (hxs : IsSegment next start xs stop) : start = xs.head? := by
  cases xs with
  | nil => exact absurd rfl hne
  | cons x xs => exact hxs.1

/-- Writes to other nodes do not change a segment. -/
theorem frame (hxs : IsSegment next start xs stop) (hsame : ∀ x ∈ xs, next' x = next x) :
    IsSegment next' start xs stop := by
  induction xs generalizing start with
  | nil => exact hxs
  | cons x xs ih =>
    refine ⟨hxs.1, ?_⟩
    rw [hsame x List.mem_cons_self]
    exact ih hxs.2 fun y hy => hsame y (List.mem_cons_of_mem x hy)

/-- The last node is pointed elsewhere. -/
theorem redirect [DecidableEq α] {p : α} (value : Option α)
    (hxs : IsSegment next start (xs ++ [p]) stop) (hp : p ∉ xs) :
    IsSegment (Function.update next p value) start (xs ++ [p]) value := by
  induction xs generalizing start with
  | nil => exact ⟨hxs.1, Function.update_self ..⟩
  | cons x xs ih =>
    have hne : x ≠ p := fun heq => hp (heq ▸ List.mem_cons_self)
    refine ⟨hxs.1, ?_⟩
    rw [Function.update_of_ne hne]
    exact ih hxs.2 fun hmem => hp (List.mem_cons_of_mem x hmem)

end IsSegment

end linked
