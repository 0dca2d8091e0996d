import Mathlib.Order.MinMax
import Ordinum.Arena.Arena

open alignment

namespace ordinum.arena

structure LayoutError where
  deriving DecidableEq, Repr

namespace Layout

def from_size_align (size align : Nat) (is_power_of_two : ∃ k, align = 2 ^ k) :
    Except LayoutError Layout :=
  if size_le : size + (align - 1) ≤ isize_max then
    .ok { size, align, is_power_of_two, size_le }
  else .error {}

theorem max_power_of_two (self next : Layout) : ∃ k, max self.align next.align = 2 ^ k := by
  obtain h | h := max_choice self.align next.align
  · rw [h]
    exact self.is_power_of_two
  · rw [h]
    exact next.is_power_of_two

/-- `next` behind this one, at the next multiple of its alignment; with the offset. -/
def extend (self next : Layout) : Except LayoutError (Layout × Nat) :=
  let offset := round_up self.size next.align
  (from_size_align (offset + next.size) (max self.align next.align)
    (max_power_of_two self next)).map fun layout => (layout, offset)

/-- `n` elements of one layout. -/
def array (elem : Layout) (n : Nat) : Except LayoutError Layout :=
  from_size_align (elem.size * n) elem.align elem.is_power_of_two

/-- A `#[repr(C)]` struct with these fields; with their offsets. -/
def repr_c (fields : List Layout) : Except LayoutError (Layout × List Nat) := do
  let start : Layout := { size := 0, align := 1, is_power_of_two := one_power_of_two, size_le := by decide }
  let (layout, offsets) ← fields.foldlM (fun (layout, offsets) field => do
    let (layout, offset) ← layout.extend field
    return (layout, offsets ++ [offset])) (start, ([] : List Nat))
  let padded ← from_size_align (round_up layout.size layout.align) layout.align
    layout.is_power_of_two
  return (padded, offsets)

theorem from_size_align_ok {size align : Nat} (hpower : ∃ k, align = 2 ^ k)
    (hsize : size + (align - 1) ≤ isize_max) :
    ∃ layout, from_size_align size align hpower = .ok layout ∧ layout.size = size ∧
      layout.align = align :=
  ⟨_, dif_pos hsize, rfl, rfl⟩

theorem array_ok (elem : Layout) (n : Nat)
    (hsize : elem.size * n + (elem.align - 1) ≤ isize_max) :
    ∃ layout, array elem n = .ok layout ∧ layout.size = elem.size * n ∧
      layout.align = elem.align :=
  from_size_align_ok _ hsize

/-- Where the size is a multiple of the next alignment nothing is padded. -/
theorem extend_ok (self next : Layout) (haligned : next.align ∣ self.size)
    (hsize : self.size + next.size + (max self.align next.align - 1) ≤ isize_max) :
    ∃ layout, self.extend next = .ok (layout, self.size) ∧
      layout.size = self.size + next.size ∧ layout.align = max self.align next.align := by
  have hoffset : round_up self.size next.align = self.size :=
    round_up_of_dvd next.align_pos haligned
  obtain ⟨layout, hok, hlayout, halign⟩ :=
    from_size_align_ok (max_power_of_two self next) hsize
  refine ⟨layout, ?_, hlayout, halign⟩
  simp only [extend, hoffset, hok]
  rfl

end Layout

end ordinum.arena
