import Mathlib.Algebra.Group.Nat.Defs
import Mathlib.Data.List.Basic

namespace wire

variable {σ α β : Type}

/-- A reader takes a value off the front of its input. -/
abbrev Reader (σ : Type) := StateT (List σ) Option

/-- The reader takes exactly `word` off any input that starts with it, and
reads `a`. -/
def Reader.Recovers (r : Reader σ α) (a : α) (word : List σ) : Prop :=
  ∀ rest, r.run (word ++ rest) = some (a, rest)

theorem Reader.Recovers.pure (a : α) : Reader.Recovers (Pure.pure a : Reader σ α) a [] :=
  fun _ => rfl

/-- Readers in sequence recover from words in sequence. -/
theorem Reader.Recovers.bind {r : Reader σ α} {f : α → Reader σ β} {a : α} {b : β}
    {word word' : List σ} (hr : r.Recovers a word) (hf : (f a).Recovers b word') :
    (r >>= f).Recovers b (word ++ word') := by
  intro rest
  rw [StateT.run_bind, List.append_assoc, hr]
  exact hf rest

/-- The next symbol. -/
def next : Reader σ σ
  | [] => none
  | x :: rest => some (x, rest)

/-- The next `n` symbols. -/
def take (n : Nat) : Reader σ (List σ) := fun input =>
  if n ≤ input.length then some (input.take n, input.drop n) else none

theorem take_recovers {word : List σ} {n : Nat} (hlen : word.length = n) :
    (take n).Recovers word word := by
  intro rest
  have hle : n ≤ (word ++ rest).length := by
    rw [List.length_append]
    omega
  subst hlen
  simp only [StateT.run, take, if_pos hle, List.take_left, List.drop_left]

/-- Read values until the input is used up; `none` when it ends inside a value.
A reader that takes nothing off would not get further, so `fuel` symbols of
input bound the number of values. -/
def read_values (r : Reader σ α) : Nat → List σ → Option (List α)
  | _, [] => some []
  | 0, _ :: _ => none
  | fuel + 1, x :: input => do
    let (a, rest) ← r.run (x :: input)
    let values ← read_values r fuel rest
    return a :: values

def read_to_end (r : Reader σ α) (input : List σ) : Option (List α) :=
  read_values r input.length input

theorem read_values_flatMap {r : Reader σ α} {encode : α → List σ} {values : List α}
    (hrecovers : ∀ a ∈ values, r.Recovers a (encode a) ∧ encode a ≠ []) :
    ∀ fuel, (values.flatMap encode).length ≤ fuel →
      read_values r fuel (values.flatMap encode) = some values := by
  induction values with
  | nil =>
    intro fuel _
    cases fuel <;> rfl
  | cons a rest ih =>
    intro fuel hfuel
    obtain ⟨hread, hne⟩ := hrecovers a List.mem_cons_self
    obtain ⟨x, tail, hword⟩ := List.exists_cons_of_ne_nil hne
    rw [List.flatMap_cons, List.length_append, hword, List.length_cons] at hfuel
    obtain ⟨fuel, rfl⟩ : ∃ n, fuel = n + 1 := ⟨fuel - 1, by omega⟩
    have hhead := hread (rest.flatMap encode)
    have htail := ih (fun b hb => hrecovers b (List.mem_cons_of_mem a hb)) fuel (by omega)
    rw [hword, List.cons_append] at hhead
    simp only [List.flatMap_cons, hword, List.cons_append, read_values, hhead,
      Option.bind_eq_bind, Option.bind_some, htail]
    rfl

/-- Values written one after the other are read back. -/
theorem read_to_end_flatMap {r : Reader σ α} {encode : α → List σ} {values : List α}
    (hrecovers : ∀ a ∈ values, r.Recovers a (encode a) ∧ encode a ≠ []) :
    read_to_end r (values.flatMap encode) = some values :=
  read_values_flatMap hrecovers _ (Nat.le_refl _)

/-- Two sequences of values that are written the same are the same. -/
theorem flatMap_injective {r : Reader σ α} {encode : α → List σ} {values values' : List α}
    (hrecovers : ∀ a ∈ values, r.Recovers a (encode a) ∧ encode a ≠ [])
    (hrecovers' : ∀ a ∈ values', r.Recovers a (encode a) ∧ encode a ≠ [])
    (heq : values.flatMap encode = values'.flatMap encode) : values = values' := by
  have hread := read_to_end_flatMap hrecovers
  rw [heq, read_to_end_flatMap hrecovers'] at hread
  exact (Option.some.inj hread).symm

/-- The lowest `n` bytes of a word, lowest first. -/
def to_le_bytes {w : Nat} : Nat → BitVec w → List (BitVec 8)
  | 0, _ => []
  | n + 1, x => x.setWidth 8 :: to_le_bytes n (x >>> 8)

def from_le_bytes (w : Nat) : List (BitVec 8) → BitVec w
  | [] => 0
  | byte :: rest => byte.setWidth w ||| (from_le_bytes w rest <<< 8)

@[simp] theorem length_to_le_bytes {w : Nat} (n : Nat) (x : BitVec w) :
    (to_le_bytes n x).length = n := by
  induction n generalizing x with
  | zero => rfl
  | succ n ih => rw [to_le_bytes, List.length_cons, ih]

/-- The word without its lowest byte fits one byte less. -/
theorem ushiftRight_toNat_lt {w n : Nat} {x : BitVec w} (hx : x.toNat < 2 ^ (8 * (n + 1))) :
    (x >>> 8).toNat < 2 ^ (8 * n) := by
  rw [BitVec.toNat_ushiftRight, Nat.shiftRight_eq_div_pow]
  apply Nat.div_lt_of_lt_mul
  rwa [← Nat.pow_add, Nat.add_comm, ← Nat.mul_succ]

/-- A word that fits `n` bytes is read back from them. -/
theorem from_le_bytes_to_le_bytes {w : Nat} (n : Nat) {x : BitVec w} (hx : x.toNat < 2 ^ (8 * n)) :
    from_le_bytes w (to_le_bytes n x) = x := by
  induction n generalizing x with
  | zero =>
    have hzero : x.toNat = 0 := by simpa using hx
    exact BitVec.eq_of_toNat_eq (by simp [to_le_bytes, from_le_bytes, hzero])
  | succ n ih =>
    rw [to_le_bytes, from_le_bytes, ih (ushiftRight_toNat_lt hx)]
    apply BitVec.eq_of_getLsbD_eq
    intro i hi
    simp only [BitVec.getLsbD_or, BitVec.getLsbD_setWidth, BitVec.getLsbD_shiftLeft,
      BitVec.getLsbD_ushiftRight, hi, decide_true, Bool.true_and]
    by_cases hlow : i < 8
    · simp [hlow]
    · have hsplit : 8 + (i - 8) = i := by omega
      simp [hlow, hsplit]

/-- The bytes of a word are its lowest bits. -/
theorem to_le_bytes_congr {w : Nat} {n : Nat} {x y : BitVec w}
    (hsame : ∀ i, i < 8 * n → x.getLsbD i = y.getLsbD i) : to_le_bytes n x = to_le_bytes n y := by
  induction n generalizing x y with
  | zero => rfl
  | succ n ih =>
    rw [to_le_bytes, to_le_bytes, List.cons.injEq]
    constructor
    · apply BitVec.eq_of_getLsbD_eq
      intro i hi
      simp only [BitVec.getLsbD_setWidth, hi, decide_true, Bool.true_and]
      exact hsame i (by omega)
    · apply ih
      intro i hi
      rw [BitVec.getLsbD_ushiftRight, BitVec.getLsbD_ushiftRight]
      exact hsame (8 + i) (by omega)

/-- Bytes that fit a word are the bytes of the word read from them. -/
theorem to_le_bytes_from_le_bytes {w : Nat} (bytes : List (BitVec 8))
    (hlength : 8 * bytes.length ≤ w) : to_le_bytes bytes.length (from_le_bytes w bytes) = bytes := by
  induction bytes with
  | nil => rfl
  | cons byte rest ih =>
    rw [List.length_cons] at hlength
    rw [List.length_cons, to_le_bytes, from_le_bytes, List.cons.injEq]
    constructor
    · apply BitVec.eq_of_getLsbD_eq
      intro i hi
      have hw : i < w := by omega
      simp [hi, hw]
    · refine Eq.trans (to_le_bytes_congr fun i hi => ?_) (ih (by omega))
      have hw : 8 + i < w := by omega
      have hhigh : ¬ 8 + i < 8 := by omega
      simp only [BitVec.getLsbD_ushiftRight, BitVec.getLsbD_or, BitVec.getLsbD_setWidth,
        BitVec.getLsbD_shiftLeft, hw, hhigh, decide_true, decide_false, Bool.true_and,
        Bool.not_false, Nat.add_sub_cancel_left]
      rw [BitVec.getLsbD_of_ge byte (8 + i) (by omega), Bool.false_or]

end wire
