import Mathlib.Data.List.Basic

namespace wire

/-- A byte at every address. -/
abbrev Memory := Nat → BitVec 8

namespace Memory

def write (mem : Memory) (address : Nat) (bytes : List (BitVec 8)) : Memory := fun a =>
  if address ≤ a then bytes[a - address]?.getD (mem a) else mem a

def read (mem : Memory) (address n : Nat) : List (BitVec 8) :=
  (List.range n).map fun i => mem (address + i)

variable {mem mem' : Memory} {address n : Nat} {bytes : List (BitVec 8)}

@[simp] theorem length_read : (mem.read address n).length = n := by
  rw [read, List.length_map, List.length_range]

/-- A write leaves the bytes outside its region. -/
theorem write_of_outside {a : Nat} (h : a < address ∨ address + bytes.length ≤ a) :
    mem.write address bytes a = mem a := by
  unfold write
  split
  · rw [List.getElem?_eq_none (by omega), Option.getD_none]
  · rfl

theorem read_write (mem : Memory) (address : Nat) (bytes : List (BitVec 8)) :
    (mem.write address bytes).read address bytes.length = bytes := by
  apply List.ext_getElem length_read
  intro i hread hi
  simp only [read, List.getElem_map, List.getElem_range, write, Nat.le_add_right, if_true,
    Nat.add_sub_cancel_left, List.getElem?_eq_getElem hi, Option.getD_some]

/-- A part of what was written. -/
theorem read_write_part (mem : Memory) (address : Nat) (before bytes after : List (BitVec 8)) :
    (mem.write address (before ++ bytes ++ after)).read (address + before.length) bytes.length =
      bytes := by
  apply List.ext_getElem length_read
  intro i hread hi
  have hle : address ≤ address + before.length + i := by omega
  have hindex : address + before.length + i - address = before.length + i := by omega
  simp only [read, List.getElem_map, List.getElem_range, write, if_pos hle, hindex]
  rw [List.append_assoc, List.getElem?_append_right (Nat.le_add_right ..), Nat.add_sub_cancel_left,
    List.getElem?_append_left hi, List.getElem?_eq_getElem hi, Option.getD_some]

/-- What is read depends on the bytes of its region. -/
theorem read_congr (h : ∀ a, address ≤ a → a < address + n → mem' a = mem a) :
    mem'.read address n = mem.read address n := by
  apply List.map_congr_left
  intro i hi
  have hlt := List.mem_range.mp hi
  exact h _ (Nat.le_add_right ..) (by omega)

/-- A write to another region does not change what is read. -/
theorem read_write_apart {start : Nat}
    (h : start + n ≤ address ∨ address + bytes.length ≤ start) :
    (mem.write address bytes).read start n = mem.read start n :=
  read_congr fun _ _ _ => write_of_outside (by omega)

/-- The same words, written to consecutive places of `width` bytes. -/
def fill (mem : Memory) (address width : Nat) (word : List (BitVec 8)) (count : Nat) : Memory :=
  (List.range count).foldl (fun mem i => mem.write (address + i * width) word) mem

theorem fill_succ (count width : Nat) (word : List (BitVec 8)) :
    mem.fill address width word (count + 1) =
      (mem.fill address width word count).write (address + count * width) word := by
  rw [fill, List.range_succ, List.foldl_append]
  rfl

/-- The words stay within their region. -/
theorem fill_of_outside {width count a : Nat} {word : List (BitVec 8)} (hword : word.length = width)
    (h : a < address ∨ address + count * width ≤ a) :
    mem.fill address width word count a = mem a := by
  induction count with
  | zero => rfl
  | succ count ih =>
    rw [Nat.succ_mul] at h
    rw [fill_succ, write_of_outside (by omega)]
    exact ih (by omega)

end Memory

end wire
