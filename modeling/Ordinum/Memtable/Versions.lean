import Ordinum.Memtable.Memtable

open interleaving interleaving.System
open ordinum.key ordinum.mem_skip_list ordinum.utils

namespace ordinum.memtable

/-- A version of a user key, whose internal key fits a node. -/
structure Version where
  user_key : List Byte
  seq_no : BitVec 64
  kind : InternalKeyKind
  seq_no_lt : seq_no.toNat < 2 ^ 56
  point : kind = .Put ∨ kind = .Delete ∨ kind = .Merge
  fits : user_key.length + TRAILER_LEN < 2 ^ 16
  deriving DecidableEq

def Version.encode (v : Version) : List Byte :=
  key.encode v.user_key v.seq_no v.kind

/-- A call of `Memtable::insert`. -/
structure Insert where
  version : Version
  value : List Byte
  deriving DecidableEq

def Insert.call (i : Insert) : InsertCall :=
  insert i.version.encode i.value

/-- One thread inserts versions, and the arena has room. -/
def version_inserts : StepCondition Unit InsertAct SkipList InsertThread := fun _ a _ l =>
  (∀ call, a = .start call → ∃ i : Insert, call = i.call) ∧
    ∀ call ctx height, l.running = some (call, .alloc ctx height) → a = .step false

/-- The memtable after a sequence of inserts that have returned. -/
structure Filled (inserts : List Insert) (c : Config Unit SkipList InsertThread) : Prop where
  reachable : (skip_list_system InternalKeyComparator Unit).ReachableUnder version_inserts c
  idle : (c.threads ()).running = none
  inserts : (c.threads ()).returned.map Prod.fst = inserts.map Insert.call

/-- A version that a snapshot may see. -/
def Version.Visible (v : Version) (user_key : List Byte) (snapshot : BitVec 64) : Prop :=
  v.user_key = user_key ∧ v.seq_no.toNat ≤ snapshot.toNat

/-- In the order of (sequence number, kind). -/
def Version.NotAfter (v w : Version) : Prop :=
  v.seq_no.toNat < w.seq_no.toNat ∨
    v.seq_no = w.seq_no ∧ v.kind.to_u8.toNat ≤ w.kind.to_u8.toNat

/-- What a read of a user key at a snapshot answers after a sequence of inserts. -/
inductive Answers (inserts : List Insert) (user_key : List Byte) (snapshot : BitVec 64) :
    MemReturn → Prop where
  | not_found (hnone : ∀ i ∈ inserts, ¬ i.version.Visible user_key snapshot) :
    Answers inserts user_key snapshot .NotFound
  | newest {before i after ret} (hinserts : inserts = before ++ i :: after)
    (hfirst : ∀ j ∈ before, j.version ≠ i.version)
    (hvisible : i.version.Visible user_key snapshot)
    (hnewest : ∀ j ∈ inserts, j.version.Visible user_key snapshot →
      j.version.NotAfter i.version)
    (hret : MemReturn.of_kind i.value i.version.kind = some ret) :
    Answers inserts user_key snapshot ret

/-- The kind byte of a version is read back. -/
theorem Version.try_from_kind (v : Version) :
    InternalKeyKind.try_from v.kind.to_u8 = .ok v.kind := by
  obtain hkind | hkind | hkind := v.point
  · rw [hkind]
    rfl
  · rw [hkind]
    rfl
  · rw [hkind]
    rfl

/-- Every version reads as something. -/
theorem Version.of_kind (v : Version) (value : List Byte) :
    ∃ ret, MemReturn.of_kind value v.kind = some ret := by
  obtain hkind | hkind | hkind := v.point
  · exact ⟨.Value value, by rw [hkind]; rfl⟩
  · exact ⟨.Deleted, by rw [hkind]; rfl⟩
  · exact ⟨.Merge, by rw [hkind]; rfl⟩

section order

theorem Version.encode_injective {v w : Version} (h : v.encode = w.encode) :
    v = w := by
  have href := congrArg InternalKeyRef.from_key h
  rw [Version.encode, Version.encode, from_key_encode _ _ v.seq_no_lt, from_key_encode _ _ w.seq_no_lt,
    InternalKeyRef.mk.injEq] at href
  obtain ⟨huser, hseq, hop⟩ := href
  cases v
  cases w
  simp only [Version.mk.injEq]
  exact ⟨huser, hseq, InternalKeyKind.to_u8_injective hop⟩

/-- The version with its sequence number above its kind. -/
def Version.stamp (v : Version) : Nat := v.seq_no.toNat * 2 ^ 8 + v.kind.to_u8.toNat

theorem Version.notAfter_iff {v w : Version} : v.NotAfter w ↔ v.stamp ≤ w.stamp := by
  have hv := v.kind.to_u8.isLt
  have hw := w.kind.to_u8.isLt
  rw [Version.NotAfter, ← BitVec.toNat_inj, Version.stamp, Version.stamp]
  omega

/-- A version is visible where its key is not left of the lookup key. -/
theorem Version.visible_iff {v : Version} {user_key : List Byte} {snapshot : BitVec 64}
    (hsnapshot : snapshot.toNat < 2 ^ 56) : v.Visible user_key snapshot ↔
      v.user_key = user_key ∧
        InternalKeyComparator.compare v.encode (key.encode user_key snapshot .Max) ≠ .lt := by
  apply and_congr_right
  intro huser
  have hself : compare v.user_key v.user_key = .eq := Std.ReflCmp.compare_self
  have hkind := v.kind.to_u8.isLt
  have hmax : InternalKeyKind.Max.to_u8.toNat = 255 := rfl
  rw [Version.encode, compare_encode v.seq_no_lt hsnapshot, ← huser, hself, Ordering.eq_then,
    Ne, Nat.compare_eq_lt, hmax]
  omega

/-- Of two versions of one user key the later one is left. -/
theorem Version.notAfter_of_lt {v w : Version} (huser : v.user_key = w.user_key)
    (hlt : InternalKeyComparator.compare v.encode w.encode = .lt) : w.NotAfter v := by
  have hself : compare w.user_key w.user_key = .eq := Std.ReflCmp.compare_self
  rw [Version.encode, Version.encode, compare_encode v.seq_no_lt w.seq_no_lt, huser, hself,
    Ordering.eq_then, Nat.compare_eq_lt] at hlt
  rw [Version.notAfter_iff]
  exact Nat.le_of_lt hlt

/-- What is right of a lookup key and left of a version of its user key is a
version of that user key. -/
theorem Version.user_key_between {v w : Version} {snapshot : BitVec 64}
    (hsnapshot : snapshot.toNat < 2 ^ 56)
    (hright : InternalKeyComparator.compare v.encode (key.encode w.user_key snapshot .Max) ≠ .lt)
    (hleft : InternalKeyComparator.compare v.encode w.encode = .lt) : v.user_key = w.user_key := by
  rw [Version.encode, compare_encode v.seq_no_lt hsnapshot] at hright
  rw [Version.encode, Version.encode, compare_encode v.seq_no_lt w.seq_no_lt] at hleft
  cases huser : compare v.user_key w.user_key with
  | lt => exact absurd (by rw [huser]; rfl) hright
  | eq => exact Std.LawfulEqCmp.eq_of_compare huser
  | gt =>
    rw [huser] at hleft
    cases hleft

end order

section answers

variable {inserts : List Insert} {user_key : List Byte} {snapshot : BitVec 64}

/-- Two versions of a user key that neither comes after are the same. -/
theorem Version.eq_of_notAfter {v w : Version} (huser : v.user_key = w.user_key)
    (hvw : v.NotAfter w) (hwv : w.NotAfter v) : v = w := by
  have hseq : v.seq_no = w.seq_no := by
    obtain hlt | ⟨heq, -⟩ := hvw
    · obtain hlt' | ⟨heq, -⟩ := hwv
      · omega
      · exact heq.symm
    · exact heq
  have hkind : v.kind.to_u8 = w.kind.to_u8 := by
    apply BitVec.eq_of_toNat_eq
    obtain hlt | ⟨-, hle⟩ := hvw
    · rw [hseq] at hlt
      omega
    · obtain hlt | ⟨-, hle'⟩ := hwv
      · rw [hseq] at hlt
        omega
      · omega
  cases v
  cases w
  simp only [Version.mk.injEq]
  exact ⟨huser, hseq, InternalKeyKind.to_u8_injective hkind⟩

theorem find_first {before : List Insert} (after : List Insert) {i : Insert}
    (hfirst : ∀ j ∈ before, j.version ≠ i.version) :
    (before ++ i :: after).find? (fun j => j.version = i.version) = some i := by
  have hbefore : before.find? (fun j => j.version = i.version) = none := by
    rw [List.find?_eq_none]
    intro j hj
    simpa using hfirst j hj
  rw [List.find?_append, hbefore, Option.none_or]
  exact List.find?_cons_of_pos (by simp)

/-- The inserts and the snapshot determine the answer. -/
theorem Answers.unique {ret ret' : MemReturn} (h : Answers inserts user_key snapshot ret)
    (h' : Answers inserts user_key snapshot ret') : ret = ret' := by
  cases h with
  | not_found hnone =>
    cases h' with
    | not_found => rfl
    | newest hinserts _ hvisible => exact absurd hvisible (hnone _ (by rw [hinserts]; simp))
  | @newest before i after _ hinserts hfirst hvisible hnewest hret =>
    cases h' with
    | not_found hnone => exact absurd hvisible (hnone _ (by rw [hinserts]; simp))
    | @newest before' i' after' _ hinserts' hfirst' hvisible' hnewest' hret' =>
      have hversion : i.version = i'.version :=
        Version.eq_of_notAfter (hvisible.1.trans hvisible'.1.symm)
          (hnewest' i (by rw [hinserts]; simp) hvisible)
          (hnewest i' (by rw [hinserts']; simp) hvisible')
      have hfind := find_first after hfirst
      rw [← hinserts, hversion, hinserts', find_first _ hfirst'] at hfind
      cases hfind
      exact Option.some.inj (hret.symm.trans hret')

end answers

end ordinum.memtable
