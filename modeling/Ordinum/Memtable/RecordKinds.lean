import Ordinum.Key.RecordKinds
import Ordinum.Memtable.Snapshot

open interleaving interleaving.System
open ordinum.key ordinum.mem_skip_list ordinum.utils

namespace ordinum.memtable

/-- A `get` whose search has ended does not panic at this key. -/
def ReadWithoutPanic (bytes : List Byte) : Prop :=
  ∀ fuel s lookup value, first_ge fuel s lookup = some (some (bytes, value)) →
    get fuel s lookup ≠ none

/-- The kinds of written records other than log data are what `get` has a return for. -/
theorem MemReturn.of_written {kind : InternalKeyKind} (hkind : kind.Written) (hlog : kind ≠ .Log)
    (value : List Byte) : MemReturn.of_kind value kind ≠ none := by
  obtain ⟨record, hrecord⟩ := hkind
  cases record <;> cases hrecord
  · exact Option.some_ne_none _
  · exact Option.some_ne_none _
  · exact Option.some_ne_none _
  · exact absurd rfl hlog

theorem read_without_panic (user_key : List Byte) {seq_no : BitVec 64}
    (hseq : seq_no.toNat < 2 ^ 56) {kind : InternalKeyKind} (hkind : kind.Written)
    (hlog : kind ≠ .Log) : ReadWithoutPanic (key.encode user_key seq_no kind) := by
  intro fuel s lookup value hfound
  rw [get_eq, hfound, Option.bind_some, get_return]
  simp only [from_key_encode user_key kind hseq, hkind.try_from_iff.mpr hlog]
  split
  · exact Option.some_ne_none _
  · exact MemReturn.of_written hkind hlog value

/-- A lookup key is made, decodes to its parts, and is read back without a panic. -/
def RoundTrips (N : Nat) (user_key : List Byte) (seq_no : BitVec 64) (kind : InternalKeyKind) :
    Prop :=
  ∃ k bytes, LookUpKey.new N user_key seq_no kind = .ok k ∧ k.as_ref = some bytes ∧
    DecodesTo bytes user_key seq_no kind ∧ ReadWithoutPanic bytes

/-- The keys of written records make the round trip, those of log data apart; the length
is what the lookup key asserts. -/
theorem round_trips_iff (N : Nat) (user_key : List Byte) {seq_no : BitVec 64}
    (hseq : seq_no.toNat < 2 ^ 56) {kind : InternalKeyKind} (hkind : kind.Written) :
    RoundTrips N user_key seq_no kind ↔
      kind ≠ .Log ∧ user_key.length + TRAILER_LEN ≤ MAX_KEY_SIZE := by
  have hlimit := @look_up_key_iff N user_key seq_no kind
  constructor
  · rintro ⟨k, bytes, hnew, hbytes, hdecodes, -⟩
    have hfits := LookUpKey.fits_of_new hnew
    obtain ⟨k', hnew', hbytes'⟩ := hlimit.mpr hfits
    cases hnew.symm.trans hnew'
    cases hbytes.symm.trans hbytes'
    exact ⟨(encode_decodes_iff user_key hseq hkind).mp hdecodes, hfits⟩
  · rintro ⟨hlog, hfits⟩
    obtain ⟨k, hnew, hbytes⟩ := hlimit.mpr hfits
    exact ⟨k, _, hnew, hbytes, (encode_decodes_iff user_key hseq hkind).mpr hlog,
      read_without_panic user_key hseq hkind hlog⟩

theorem round_trips_iff_put : RoundTrips INLINE_IK_SIZE [] 1 .Put ↔
    InternalKeyKind.Put ≠ .Log ∧ ([] : List Byte).length + TRAILER_LEN ≤ MAX_KEY_SIZE :=
  round_trips_iff INLINE_IK_SIZE [] (by decide) ⟨.Put, rfl⟩

/-- Log data under the empty user key. -/
def logged : List Byte := key.encode [] 1 .Log

def insert_logged : List (Unit × InsertAct) :=
  ((), .start (insert logged [1])) :: List.replicate 8 ((), .step false)

/-- The kind byte of a log record is not read back, and the `get` that finds it panics. -/
theorem log_kind_is_not_read :
    InternalKeyKind.try_from_record .LogData = .ok .Log ∧
    ¬ RoundTrips INLINE_IK_SIZE [] 1 .Log ∧
    ∃ c, (skip_list_system InternalKeyComparator Unit).ReachableUnder entries_fit c ∧
      (c.threads ()).running = none ∧
      first_ge 64 c.shared (key.encode [] 2 .Max) = some (some (logged, [1])) ∧
      get 64 c.shared (key.encode [] 2 .Max) = none := by
  refine ⟨rfl, ?_, ?_⟩
  · rintro ⟨k, bytes, hnew, hbytes, hdecodes, -⟩
    obtain ⟨k', hnew', hbytes'⟩ := (@look_up_key_iff INLINE_IK_SIZE [] 1 .Log).mpr
      (by decide)
    cases hnew.symm.trans hnew'
    cases hbytes.symm.trans hbytes'
    exact (encode_decodes_iff [] (by decide) ⟨.LogData, rfl⟩).mp hdecodes rfl
  · obtain ⟨c, hc, hseen⟩ := reachable_showing (skip_list_system InternalKeyComparator Unit)
      entries_fit insert_logged
      (fun c => ((c.threads ()).running.isNone && (get 64 c.shared (key.encode [] 2 .Max)).isNone,
        first_ge 64 c.shared (key.encode [] 2 .Max)))
      (true, some (some (logged, [1]))) (by decide +kernel)
    simp only [Prod.mk.injEq, Bool.and_eq_true, Option.isNone_iff_eq_none] at hseen
    obtain ⟨⟨hidle, hpanic⟩, hfound⟩ := hseen
    exact ⟨c, hc, hidle, hfound, hpanic⟩

end ordinum.memtable
