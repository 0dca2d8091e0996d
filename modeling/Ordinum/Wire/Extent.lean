import Ordinum.Wire.Memory

namespace wire

/-- A run of consecutive bytes. -/
structure Extent where
  start : Nat
  size : Nat
  deriving DecidableEq, Repr

namespace Extent

/-- Two runs have no byte in common. -/
def Apart (e f : Extent) : Prop :=
  e.start + e.size ≤ f.start ∨ f.start + f.size ≤ e.start

variable {e f : Extent}

theorem Apart.symm (h : e.Apart f) : f.Apart e := Or.symm h

/-- Runs that are not empty and have no byte in common start apart. -/
theorem Apart.start_ne (h : e.Apart f) (he : 0 < e.size) (hf : 0 < f.size) : e.start ≠ f.start := by
  unfold Apart at h
  omega

end Extent

namespace Memory

/-- The bytes of the run are the same. -/
def SameOn (mem mem' : Memory) (e : Extent) : Prop :=
  ∀ a, e.start ≤ a → a < e.start + e.size → mem' a = mem a

/-- No byte outside of the run has changed. -/
def ChangesOnly (mem mem' : Memory) (e : Extent) : Prop :=
  ∀ a, a < e.start ∨ e.start + e.size ≤ a → mem' a = mem a

variable {mem mem' : Memory} {e f : Extent}

theorem ChangesOnly.sameOn (h : mem.ChangesOnly mem' e) (hapart : e.Apart f) :
    mem.SameOn mem' f := by
  intro a hle hlt
  apply h
  unfold Extent.Apart at hapart
  omega

/-- A part of a run. -/
theorem ChangesOnly.mono (h : mem.ChangesOnly mem' e) (hstart : f.start ≤ e.start)
    (hend : e.start + e.size ≤ f.start + f.size) : mem.ChangesOnly mem' f := by
  intro a ha
  apply h
  omega

theorem SameOn.refl (mem : Memory) (e : Extent) : mem.SameOn mem e := fun _ _ _ => rfl

theorem SameOn.mono (h : mem.SameOn mem' f) (hstart : f.start ≤ e.start)
    (hend : e.start + e.size ≤ f.start + f.size) : mem.SameOn mem' e := by
  intro a hle hlt
  exact h a (by omega) (by omega)

theorem write_changesOnly (mem : Memory) (address : Nat) (bytes : List (BitVec 8)) :
    mem.ChangesOnly (mem.write address bytes) ⟨address, bytes.length⟩ :=
  fun _ ha => write_of_outside ha

/-- A word that is filled in is read back at each of its places. -/
theorem read_fill {width : Nat} {word : List (BitVec 8)} (hword : word.length = width)
    {count address i : Nat} (hi : i < count) :
    (mem.fill address width word count).read (address + i * width) width = word := by
  induction count with
  | zero => cases hi
  | succ count ih =>
    rw [fill_succ]
    obtain hlt | rfl := Nat.lt_succ_iff_lt_or_eq.mp hi
    · have hmul : (i + 1) * width ≤ count * width := Nat.mul_le_mul_right width hlt
      rw [Nat.succ_mul] at hmul
      rw [read_write_apart (.inl (by omega))]
      exact ih hlt
    · subst hword
      exact read_write _ _ word

end Memory

end wire
