import Mathlib.Algebra.BigOperators.Group.Finset.Basic
import Mathlib.Algebra.Order.Group.Multiset

namespace init_stack

variable {α : Type*}

/-- A stack in an array of possibly uninitialised slots: `len` counts the slots
in use, and the slots know for themselves whether they are initialised. -/
structure InitStack (α : Type*) where
  len : Nat
  slots : Nat → Option α

namespace InitStack

def empty : InitStack α := { len := 0, slots := fun _ => none }

/-- Write the next slot of an array of `CAP` slots, or hand the entry back when
all are in use. The length is a `u8`: counting past it panics. -/
def push (CAP : Nat) (self : InitStack α) (entry : α) : Option (Except α (InitStack α)) :=
  if self.len = CAP then some (.error entry)
  else if self.len < CAP ∧ self.len + 1 < 2 ^ 8 then
    some (.ok { len := self.len + 1, slots := Function.update self.slots self.len (some entry) })
  else none

/-- Take the last slot in use. Reading an uninitialised slot is undefined
behaviour, shown as a panic. -/
def pop (self : InitStack α) : Option (Option (α × InitStack α)) :=
  if self.len = 0 then some none
  else
    match self.slots (self.len - 1) with
    | some entry => some (some (entry,
        { len := self.len - 1, slots := Function.update self.slots (self.len - 1) none }))
    | none => none

/-- The slots in use, and no others, are initialised, and they are within the
array. -/
structure Prefix (CAP : Nat) (stack : InitStack α) : Prop where
  len_le : stack.len ≤ CAP
  initialised : ∀ i, (stack.slots i).isSome = true ↔ i < stack.len

/-- The entries of all initialised slots of an array of `CAP` slots. -/
def contents (CAP : Nat) (self : InitStack α) : Multiset α :=
  ∑ i ∈ Finset.range CAP, (self.slots i).elim 0 fun entry => {entry}

theorem prefix_empty (CAP : Nat) : (empty : InitStack α).Prefix CAP :=
  ⟨Nat.zero_le CAP, fun i => by simp [empty]⟩

theorem contents_empty (CAP : Nat) : (empty : InitStack α).contents CAP = 0 := by
  simp [contents, empty]

/-- Changing one term of a sum trades its old value for the new one. -/
theorem sum_update {M β : Type*} [AddCommMonoid M] (f : β → M) (g : Nat → β) {n i : Nat}
    (hi : i < n) (x : β) :
    ∑ j ∈ Finset.range n, f (Function.update g i x j) + f (g i) =
      ∑ j ∈ Finset.range n, f (g j) + f x := by
  have hmem : i ∈ Finset.range n := Finset.mem_range.mpr hi
  have hrest : ∑ j ∈ (Finset.range n).erase i, f (Function.update g i x j) =
      ∑ j ∈ (Finset.range n).erase i, f (g j) := by
    apply Finset.sum_congr rfl
    intro j hj
    rw [Function.update_of_ne (Finset.ne_of_mem_erase hj)]
  rw [← Finset.add_sum_erase _ _ hmem, ← Finset.add_sum_erase _ (fun j => f (g j)) hmem, hrest,
    Function.update_self]
  ac_rfl

/-- Changing a slot trades its old entry for the new one. -/
theorem contents_update {CAP i : Nat} (hi : i < CAP) (self : InitStack α) (len : Nat)
    (entry : Option α) :
    contents CAP { len, slots := Function.update self.slots i entry } +
        (self.slots i).elim 0 (fun entry => {entry}) =
      self.contents CAP + entry.elim 0 fun entry => {entry} :=
  sum_update (fun slot : Option α => slot.elim 0 fun entry => ({entry} : Multiset α)) self.slots hi
    entry

/-- The entries are those of the slots in use, read in order. -/
theorem contents_eq {CAP : Nat} {self : InitStack α} (hself : self.Prefix CAP) :
    self.contents CAP = Multiset.ofList ((List.range self.len).filterMap self.slots) := by
  have hrange : ∀ n, ∑ i ∈ Finset.range n, (self.slots i).elim 0 (fun entry => {entry}) =
      Multiset.ofList ((List.range n).filterMap self.slots) := by
    intro n
    induction n with
    | zero => rfl
    | succ n ih =>
      rw [Finset.sum_range_succ, ih, List.range_succ, List.filterMap_append, ← Multiset.coe_add]
      cases hslot : self.slots n <;> simp [hslot]
  rw [← hrange, contents]
  refine (Finset.sum_subset (Finset.range_mono hself.len_le) ?_).symm
  intro i _ hi
  have hnone : self.slots i = none := by
    have hout := mt (hself.initialised i).mp (by simpa using hi)
    simpa using hout
  rw [hnone]
  rfl

/-- There are as many entries as slots in use. -/
theorem card_contents {CAP : Nat} {self : InitStack α} (hself : self.Prefix CAP) :
    Multiset.card (self.contents CAP) = self.len := by
  have hall : ∀ n, n ≤ self.len → ((List.range n).filterMap self.slots).length = n := by
    intro n
    induction n with
    | zero => exact fun _ => rfl
    | succ n ih =>
      intro hn
      obtain ⟨entry, hentry⟩ := Option.isSome_iff_exists.mp ((hself.initialised n).mpr hn)
      rw [List.range_succ, List.filterMap_append, List.length_append, ih (Nat.le_of_succ_le hn)]
      simp [hentry]
  rw [contents_eq hself, Multiset.coe_card, hall self.len (Nat.le_refl _)]

/-- Pushing onto a stack with room adds the entry. -/
theorem push_spec {CAP : Nat} {self : InitStack α} (hself : self.Prefix CAP) (hcap : CAP ≤ 255)
    (entry : α) :
    (self.len = CAP ∧ self.push CAP entry = some (.error entry)) ∨
    (self.len < CAP ∧ ∃ self', self.push CAP entry = some (.ok self') ∧ self'.Prefix CAP ∧
      self'.len = self.len + 1 ∧ self'.contents CAP = entry ::ₘ self.contents CAP) := by
  obtain hlt | heq := Nat.lt_or_eq_of_le hself.len_le
  · right
    have hbound : self.len + 1 < 2 ^ 8 := by omega
    refine ⟨hlt, _, by rw [push, if_neg hlt.ne, if_pos ⟨hlt, hbound⟩],
      ⟨Nat.succ_le_of_lt hlt, ?_⟩, rfl, ?_⟩
    · intro i
      change (Function.update self.slots self.len (some entry) i).isSome = true ↔ i < self.len + 1
      by_cases hi : i = self.len
      · simp [hi]
      · rw [Function.update_of_ne hi, hself.initialised]
        omega
    · have hfree : self.slots self.len = none := by
        have := (hself.initialised self.len).mp
        cases hslot : self.slots self.len with
        | none => rfl
        | some old =>
          rw [hslot] at this
          exact absurd (this rfl) (Nat.lt_irrefl _)
      have hcontents := contents_update hlt self (self.len + 1) (some entry)
      rw [hfree] at hcontents
      simpa [add_comm] using hcontents
  · exact .inl ⟨heq, by rw [push, if_pos heq]⟩

/-- Popping a stack removes the entry. -/
theorem pop_spec {CAP : Nat} {self : InitStack α} (hself : self.Prefix CAP) :
    (self.len = 0 ∧ self.pop = some none) ∨
    (0 < self.len ∧ ∃ entry self', self.pop = some (some (entry, self')) ∧ self'.Prefix CAP ∧
      self'.len = self.len - 1 ∧ self.contents CAP = entry ::ₘ self'.contents CAP) := by
  obtain hzero | hpos := Nat.eq_zero_or_pos self.len
  · exact .inl ⟨hzero, by rw [pop, if_pos hzero]⟩
  · right
    have hlast : self.len - 1 < CAP := by
      have := hself.len_le
      omega
    obtain ⟨entry, hentry⟩ := Option.isSome_iff_exists.mp
      ((hself.initialised (self.len - 1)).mpr (by omega))
    refine ⟨hpos, entry, _, by rw [pop, if_neg hpos.ne', hentry], ⟨?_, ?_⟩, rfl, ?_⟩
    · have := hself.len_le
      change self.len - 1 ≤ CAP
      omega
    · intro i
      change (Function.update self.slots (self.len - 1) none i).isSome = true ↔ i < self.len - 1
      by_cases hi : i = self.len - 1
      · simp [hi]
      · rw [Function.update_of_ne hi, hself.initialised]
        omega
    · have hcontents := contents_update hlast self (self.len - 1) none
      rw [hentry] at hcontents
      simpa [add_comm] using hcontents.symm

end InitStack

end init_stack
