import Ordinum.Utils.VarInt

open ordinum.utils

namespace ordinum.key

/-- A total order of keys. -/
structure Comparator where
  compare : List Byte → List Byte → Ordering
  [trans : Std.TransCmp compare]
  [lawful : Std.LawfulEqCmp compare]

attribute [instance] Comparator.trans Comparator.lawful

def DefaultComparator : Comparator :=
  { compare := compare }

def TRAILER_LEN : Nat := 8

/-- `key.split_at(key.len() - 8)`, for keys that have a trailer. -/
def split_trailer (key : List Byte) : List Byte × List Byte :=
  key.splitAt (key.length - TRAILER_LEN)

theorem split_trailer_injective {a b : List Byte} (h : split_trailer a = split_trailer b) :
    a = b := by
  simp only [split_trailer, List.splitAt_eq, Prod.mk.injEq] at h
  rw [← List.take_append_drop (a.length - TRAILER_LEN) a, h.1, h.2, List.take_append_drop]

/-- User keys ascend; under one user key the trailers descend. -/
def compare_internal_keys (a b : List Byte) : Ordering :=
  let (a_user, a_trailer) := split_trailer a
  let (b_user, b_trailer) := split_trailer b
  match compare a_user b_user with
  | .eq => compare b_trailer a_trailer
  | other => other

instance : Std.TransCmp compare_internal_keys := by
  have heq : compare_internal_keys = compareLex
      (compareOn fun key => (split_trailer key).1)
      (fun a b => compareOn (fun key => (split_trailer key).2) b a) := by
    funext a b
    simp only [compare_internal_keys, compareLex, compareOn]
    cases compare (split_trailer a).1 (split_trailer b).1 <;> rfl
  rw [heq]
  have : Std.TransCmp fun a b : List Byte => compareOn (fun key => (split_trailer key).2) b a :=
    Std.TransCmp.opposite
  infer_instance

instance : Std.LawfulEqCmp compare_internal_keys where
  compare_self := Std.ReflCmp.compare_self
  eq_of_compare {a b} h := by
    simp only [compare_internal_keys] at h
    split at h
    · rename_i huser
      exact split_trailer_injective (Prod.ext (Std.LawfulEqCmp.eq_of_compare huser)
        (Std.LawfulEqCmp.eq_of_compare h).symm)
    · rename_i hne
      exact absurd h hne

def InternalKeyComparator : Comparator :=
  { compare := compare_internal_keys }

namespace Comparator

variable (cmp : Comparator) {a b c : List Byte}

theorem lt_trans (hab : cmp.compare a b = .lt) (hbc : cmp.compare b c = .lt) :
    cmp.compare a c = .lt :=
  Std.TransCmp.lt_trans hab hbc

theorem lt_irrefl (a : List Byte) : cmp.compare a a ≠ .lt := by
  have hself : cmp.compare a a = .eq := Std.ReflCmp.compare_self
  rw [hself]
  decide

theorem eq_of_compare (h : cmp.compare a b = .eq) : a = b :=
  Std.LawfulEqCmp.eq_of_compare h

theorem lt_of_gt (h : cmp.compare a b = .gt) : cmp.compare b a = .lt :=
  Std.OrientedCmp.gt_iff_lt.mp h

end Comparator

end ordinum.key
