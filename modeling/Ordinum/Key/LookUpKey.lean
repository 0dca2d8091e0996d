import Ordinum.Key.IterKey

open ordinum.utils

namespace ordinum.key

def INLINE_IK_SIZE : Nat := 20

structure LookUpKey (N : Nat) where
  _inner : InnerKey N
  buffer : Option Vec

namespace LookUpKey

def new (N : Nat) (user_key : List Byte) (seq_no : BitVec 64) (op : InternalKeyKind) :
    Except Fault (LookUpKey N) := do
  let total := user_key.length + 8
  if MAX_KEY_SIZE < total then throw .MaxKeySize
  if total ≤ N then
    let _inner ← (InnerKey.new N).encode_inline user_key seq_no op
    return { _inner, buffer := none }
  let buffer : Vec :=
    { ptr := 0, buf := user_key ++ encode_trailer seq_no op, len := total }
  return { _inner := (InnerKey.new N).set_external total buffer.ptr, buffer := some buffer }

def as_ref {N : Nat} (self : LookUpKey N) : Option (List Byte) :=
  self._inner.as_slice (self.buffer.getD (.with_capacity 0))

end LookUpKey

section

variable {N : Nat} {user_key : List Byte} {seq_no : BitVec 64} {op : InternalKeyKind}

theorem LookUpKey.fits_of_new {k : LookUpKey N} (h : LookUpKey.new N user_key seq_no op = .ok k) :
    user_key.length + 8 ≤ MAX_KEY_SIZE := by
  apply Nat.le_of_not_lt
  intro hlong
  rw [LookUpKey.new, if_pos hlong] at h
  cases h

/-- A lookup key is made, and holds the whole internal key, exactly when this is under
the limit. -/
theorem look_up_key_iff : (∃ k, LookUpKey.new N user_key seq_no op = .ok k ∧
    k.as_ref = some (encode user_key seq_no op)) ↔ user_key.length + 8 ≤ MAX_KEY_SIZE := by
  constructor
  · rintro ⟨k, hnew, -⟩
    exact LookUpKey.fits_of_new hnew
  · intro hlimit
    rw [LookUpKey.new, if_neg (Nat.not_lt.mpr hlimit)]
    by_cases hinline : user_key.length + 8 ≤ N
    · rw [if_pos hinline, InnerKey.encode_inline_exact _ _ _ hinline]
      refine ⟨_, rfl, ?_⟩
      apply InnerKey.inline_of_as_slice
      rwa [length_encode]
    · rw [if_neg hinline]
      refine ⟨_, rfl, ?_⟩
      have hlength := length_encode user_key seq_no op
      rw [← hlength]
      exact InnerKey.external_as_slice _ le_rfl (List.take_length ..)

/-- An iterator key trips the assertion exactly when the key is over the limit. -/
theorem iter_key_asserts_iff (self : IterKey N) (growth : Growth) :
    self.set growth user_key seq_no op ≠ .error .MaxKeySize ↔
      user_key.length + 8 ≤ MAX_KEY_SIZE := by
  constructor
  · intro hset
    apply Nat.le_of_not_lt
    intro hlong
    apply hset
    rw [IterKey.set, if_pos hlong]
    rfl
  · intro hlimit hfault
    have hassert : (KeyCall.set user_key seq_no op).Asserted := hlimit
    have hbytes : (KeyCall.set user_key seq_no op).bytes.length = user_key.length + 8 :=
      length_encode user_key seq_no op
    change KeyCall.run growth self (.set user_key seq_no op) = _ at hfault
    by_cases hinline : user_key.length + 8 ≤ N
    · obtain ⟨self', hrun, -, -⟩ := KeyCall.run_inline hassert (hbytes.trans_le hinline)
      cases hrun.symm.trans hfault
    · rw [KeyCall.run_heap hassert (hbytes ▸ Nat.lt_of_not_le hinline)] at hfault
      cases hheap : self.heap_of_len growth (KeyCall.set user_key seq_no op).bytes.length with
      | ok heap =>
        rw [hheap] at hfault
        cases hfault
      | error e =>
        rw [hheap, Vec.error_of_set_len hheap] at hfault
        cases hfault

end

end ordinum.key
