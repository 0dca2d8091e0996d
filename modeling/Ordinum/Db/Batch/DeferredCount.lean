import Ordinum.Db.Batch.PutWith

open exec
open ordinum.utils

namespace ordinum.batch

/-- `old.copy_from_slice(src)`, whose panic is left to the closure. -/
def copy_to (src old : List Byte) : Rewrite old :=
  if h : src.length = old.length then ⟨src, h⟩ else ⟨old, rfl⟩

theorem copy_to_of_length {src old : List Byte} (h : src.length = old.length) :
    (copy_to src old).1 = src := by
  rw [copy_to, dif_pos h]

namespace DeferredFn

/-- Go on unless the copy panicked. -/
def copied (src old : List Byte) (next : DeferredFn) : DeferredFn :=
  if src.length = old.length then next else .panic

/-- Copy into the two slices of `key_value_mut`. -/
def copy_key_value (key value : List Byte) : DeferredFn :=
  .key_value_mut (fun old_key old_value => (copy_to key old_key, copy_to value old_value))
    fun old_key old_value => copied key old_key (copied value old_value .ret)

def copy_key_then_value (key value : List Byte) : DeferredFn :=
  .key_mut (copy_to key) fun old_key => copied key old_key
    (.value_mut (copy_to value) fun old_value => copied value old_value .ret)

def copy_value_then_key (key value : List Byte) : DeferredFn :=
  .value_mut (copy_to value) fun old_value => copied value old_value
    (.key_mut (copy_to key) fun old_key => copied key old_key .ret)

/-- The closures that copy a key and a value. -/
def Copies (key value : List Byte) (f : DeferredFn) : Prop :=
  f = copy_key_value key value ∨ f = copy_key_then_value key value ∨
    f = copy_value_then_key key value

variable {before key value : List Byte} {f : DeferredFn} {r : Record}

theorem copied_of_length {src old : List Byte} (h : src.length = old.length) (next : DeferredFn) :
    copied src old next = next := by
  rw [copied, if_pos h]

theorem run_copied {next : DeferredFn} {op : DeferredOp} {data src old : List Byte}
    (h : src.length = old.length) : (copied src old next).run op data = next.run op data := by
  rw [copied_of_length h]

/-- Each of them leaves the record with this key and this value. -/
theorem Copies.run (hf : f.Copies key value) (before : List Byte) {key_len value_len : Nat}
    (hkey : r.key.length = key_len) (hvalue : r.value.length = value_len)
    (hkey_len : key.length = key_len) (hvalue_len : value.length = value_len) :
    f.run (deferred_op before.length key_len value_len) (before ++ r.encode) =
      (deferred_op before.length key_len value_len,
        before ++ Record.encode { r with key, value }, .returned) := by
  have hkey_eq := hkey_len.trans hkey.symm
  have hvalue_eq := hvalue_len.trans hvalue.symm
  obtain rfl | rfl | rfl := hf
  · rw [copy_key_value, run_key_value_mut before r hkey hvalue, run_copied hkey_eq,
      run_copied hvalue_eq, copy_to_of_length hkey_eq, copy_to_of_length hvalue_eq]
    rfl
  · rw [copy_key_then_value, run_key_mut before r hkey hvalue, run_copied hkey_eq,
      copy_to_of_length hkey_eq, run_value_mut before { r with key } hkey_len hvalue,
      run_copied hvalue_eq, copy_to_of_length hvalue_eq]
    rfl
  · rw [copy_value_then_key, run_value_mut before r hkey hvalue, run_copied hvalue_eq,
      copy_to_of_length hvalue_eq, run_key_mut before { r with value } hkey hvalue_len,
      run_copied hkey_eq, copy_to_of_length hkey_eq]
    rfl

end DeferredFn

section agreement

variable {b : BatchInner} {records : List Record} {key value : List Byte} {f : DeferredFn}

/-- An accepted `put_with` that copies appends the record that `put` appends, but
counts nothing. -/
theorem Recorded.put_with_copies (hb : Recorded records b) (hf : f.Copies key value)
    (cf_id : BitVec 64) (kind : RecordKind)
    (haccepted : b.rejection key.length value.length = none) : ∃ b',
    Returns (BatchInner.put_with cf_id key.length value.length kind f) b .returned b' ∧
      b' = b.with_data (b.buffer ++ Record.encode ⟨kind, cf_id, key, value⟩) ∧
      Recorded (records ++ [⟨kind, cf_id, key, value⟩]) b' := by
  obtain ⟨hkey_blank, hvalue_blank⟩ := Record.length_blank kind cf_id key.length value.length
  have hcopied := hf.run b.buffer hkey_blank hvalue_blank rfl rfl
  obtain ⟨key', value', op, ended, b', -, -, hrun, hreturns, hend⟩ :=
    hb.put_with cf_id kind f haccepted
  obtain ⟨rfl, hrest⟩ := Prod.mk.inj (hrun.symm.trans hcopied)
  obtain ⟨hdata, rfl⟩ := Prod.mk.inj hrest
  obtain ⟨rfl, -, -⟩ | ⟨-, -, hpanicked⟩ := hend
  · refine ⟨_, hreturns, ?_, ?_⟩
    · rw [hdata]
      rfl
    · rw [hdata]
      exact hb.append_accepted haccepted
  · cases hpanicked

/-- What a call tells its caller, and the batch it leaves. -/
def outcome {α : Type} (x : BatchM α) (b : BatchInner) : Option (Except Error Unit × BatchInner) :=
  (x.run.run b).map fun r => (r.1.map fun _ => (), r.2)

theorem Returns.outcome {α : Type} {x : BatchM α} {a : α} {b' : BatchInner}
    (h : Returns x b a b') : outcome x b = some (.ok (), b') :=
  congrArg (Option.map _) h

theorem Throws.outcome {α : Type} {x : BatchM α} {e : Error} {b' : BatchInner}
    (h : Throws x b e b') : outcome x b = some (.error e, b') :=
  congrArg (Option.map _) h

/-- The operation bytes of a batch. -/
def BatchInner.operations (self : BatchInner) : List Byte :=
  self.data.drop HEADER_SIZE

/-- Counting a record leaves its bytes alone. -/
theorem counted_operations {data : List Byte} (count : BitVec 32)
    (hdata : BatchInner.HEADER_SIZE ≤ data.length) :
    (BatchInner.counted data count).drop BatchInner.HEADER_SIZE =
      data.drop BatchInner.HEADER_SIZE := by
  have hlength : (data.take BatchInner.BATCH_COUNT_OFFSET ++ wire.to_le_bytes 4 count).length =
      BatchInner.HEADER_SIZE := by
    rw [List.length_append, List.length_take, wire.length_to_le_bytes]
    change 12 ≤ data.length at hdata
    change min 8 data.length + 4 = 12
    omega
  rw [BatchInner.counted, ← hlength, List.drop_left, hlength]

/-- `put` and `put_with` agree on a rejected record only. -/
theorem deferred_outcome (hb : b.Reached) (hf : f.Copies key value) (cf_id : BitVec 64) :
    let plain := outcome (BatchInner.put cf_id key value) b
    let deferred := outcome (BatchInner.put_with cf_id key.length value.length .Put f) b
    deferred.map Prod.fst = plain.map Prod.fst ∧
      deferred.map (fun r => r.2.operations) = plain.map (fun r => r.2.operations) ∧
      (deferred = plain ↔ (b.rejection key.length value.length).isSome) := by
  obtain ⟨records, hrecorded⟩ := hb.recorded
  cases hrejection : b.rejection key.length value.length with
  | some e =>
    have hput : Throws (BatchInner.put cf_id key value) b e b :=
      BatchInner.put_rejected hrecorded.sized cf_id hrejection
    have hput_with : Throws (BatchInner.put_with cf_id key.length value.length .Put f) b e b :=
      BatchInner.put_with_rejected hrecorded.sized f hrejection
    simp only [Throws.outcome hput, Throws.outcome hput_with]
    exact ⟨trivial, trivial, by simp⟩
  | none =>
    have hput := BatchInner.put_exact hrecorded.sized cf_id hrejection
    obtain ⟨b', hput_with, rfl, -⟩ := hrecorded.put_with_copies hf cf_id .Put hrejection
    have hne : b.count ≠ b.count + 1#32 := by
      intro heq
      have htoNat := congrArg BitVec.toNat heq
      rw [BitVec.toNat_add] at htoNat
      have hlt := hrecorded.sized.count_lt
      have hmod : (b.count.toNat + (1#32).toNat) % 2 ^ 32 = b.count.toNat + 1 :=
        Nat.mod_eq_of_lt hlt
      omega
    simp only [Returns.outcome hput, Returns.outcome hput_with]
    refine ⟨rfl, ?_, ?_⟩
    · simp only [Option.map_some, BatchInner.operations, Option.some.injEq]
      refine (counted_operations _ ?_).symm
      rw [BatchInner.with_data_data, List.length_append]
      have hheader := hrecorded.sized.buffer_length.1
      omega
    · simp only [Option.some.injEq, Prod.mk.injEq, true_and, Option.isSome_none,
        Bool.false_eq_true, iff_false]
      intro heq
      exact hne (congrArg BatchInner.count heq)

end agreement

section mix

/-- A call of a mix of puts. -/
inductive Call where
  | put (call : PutCall)
  | put_with (call : PutCall) (kind : RecordKind)
    (f : { f : DeferredFn // f.Copies call.key call.value })

namespace Call

def args : Call → PutCall
  | .put call => call
  | .put_with call _ _ => call

def deferred : Call → Bool
  | .put _ => false
  | .put_with .. => true

/-- The batch after the call, whatever it returned. -/
def after (b : BatchInner) : Call → Option BatchInner
  | .put call => (outcome (BatchInner.put call.cf_id call.key call.value) b).map Prod.snd
  | .put_with call kind f =>
    (outcome (BatchInner.put_with call.cf_id call.key.length call.value.length kind f.1) b).map
      Prod.snd

/-- The batch rejects the record of the call. -/
def Rejected (call : Call) (b : BatchInner) : Prop :=
  b.rejection call.args.key.length call.args.value.length ≠ none

instance (call : Call) (b : BatchInner) : Decidable (call.Rejected b) :=
  inferInstanceAs (Decidable (_ ≠ _))

end Call

def run_calls : List Call → BatchInner → Option BatchInner
  | [], b => some b
  | call :: calls, b => (call.after b).bind (run_calls calls)

/-- Every `put_with` of the mix is rejected by the batch that it finds. -/
def DeferredRejected : List Call → BatchInner → Prop
  | [], _ => True
  | call :: calls, b =>
    (call.deferred = true → call.Rejected b) ∧ ∀ b', call.after b = some b' → DeferredRejected calls b'

variable {b : BatchInner} {records : List Record}

/-- A call appends its record unless it is rejected, and a `put` counts it. -/
theorem Call.after_recorded (hb : Recorded records b) (call : Call) : ∃ b' records',
    call.after b = some b' ∧ Recorded records' b' ∧
      records'.length + b.count.toNat = records.length + b'.count.toNat +
        (if call.deferred ∧ ¬ call.Rejected b then 1 else 0) := by
  cases hrejection : b.rejection call.args.key.length call.args.value.length with
  | some e =>
    have hrejected : call.Rejected b := by
      rw [Call.Rejected, hrejection]
      nofun
    refine ⟨b, records, ?_, hb, ?_⟩
    · cases call with
      | put call =>
        have hthrows : Throws (BatchInner.put call.cf_id call.key call.value) b e b :=
          BatchInner.put_rejected hb.sized call.cf_id hrejection
        rw [Call.after, Throws.outcome hthrows]
        rfl
      | put_with call kind f =>
        have hthrows : Throws
            (BatchInner.put_with call.cf_id call.key.length call.value.length kind f.1) b e b :=
          BatchInner.put_with_rejected hb.sized f.1 hrejection
        rw [Call.after, Throws.outcome hthrows]
        rfl
    · rw [if_neg fun h => h.2 hrejected, Nat.add_zero]
  | none =>
    have haccepted : ¬ call.Rejected b := fun h => h hrejection
    cases call with
    | put call =>
      have hcount := hb.sized.count_lt
      have hsucc : (b.count + 1#32).toNat = b.count.toNat + 1 := by
        rw [BitVec.toNat_add]
        exact Nat.mod_eq_of_lt hcount
      have hrecorded : Recorded (records ++ [call.record])
          (b.with_put call.cf_id call.key call.value) := hb.put hrejection
      have hreturns : Returns (BatchInner.put call.cf_id call.key call.value) b ()
          (b.with_put call.cf_id call.key call.value) :=
        BatchInner.put_exact hb.sized call.cf_id hrejection
      refine ⟨_, _, ?_, hrecorded, ?_⟩
      · rw [Call.after, Returns.outcome hreturns]
        rfl
      · rw [if_neg fun h => Bool.false_ne_true h.1, List.length_append, List.length_singleton]
        change _ = _ + (b.count + 1#32).toNat + 0
        omega
    | put_with call kind f =>
      obtain ⟨b', hreturns, rfl, hrecorded⟩ :=
        hb.put_with_copies f.2 call.cf_id kind hrejection
      refine ⟨_, _, ?_, hrecorded, ?_⟩
      · rw [Call.after, Returns.outcome hreturns]
        rfl
      · rw [if_pos ⟨rfl, haccepted⟩, List.length_append, List.length_singleton,
          BatchInner.with_data_count]
        omega

/-- Over a mix the records outgrow the count by the deferred ones that are
accepted. -/
theorem run_calls_recorded (calls : List Call) : ∀ {records : List Record} {b : BatchInner},
    Recorded records b → ∃ b' records' uncounted, run_calls calls b = some b' ∧
      Recorded records' b' ∧
      records'.length + b.count.toNat = records.length + b'.count.toNat + uncounted ∧
      (uncounted = 0 ↔ DeferredRejected calls b) := by
  induction calls with
  | nil =>
    intro records b hb
    exact ⟨b, records, 0, rfl, hb, rfl, by simp [DeferredRejected]⟩
  | cons call calls ih =>
    intro records b hb
    obtain ⟨b1, records1, hafter, hb1, hcount1⟩ := call.after_recorded hb
    obtain ⟨b', records', uncounted, hrun, hb', hcount, hiff⟩ := ih hb1
    refine ⟨b', records', uncounted + if call.deferred ∧ ¬ call.Rejected b then 1 else 0, ?_, hb',
      by omega, ?_⟩
    · rw [run_calls, hafter, Option.bind_some, hrun]
    · have hrest : (∀ b', call.after b = some b' → DeferredRejected calls b') ↔
          DeferredRejected calls b1 := by
        rw [hafter]
        simp
      rw [DeferredRejected, hrest, ← hiff, Nat.add_eq_zero_iff, and_comm]
      apply and_congr_left'
      split
      · rename_i hkept
        simp only [one_ne_zero, false_iff]
        exact fun h => hkept.2 (h hkept.1)
      · rename_i hnot
        simp only [true_iff]
        exact fun h => not_not.mp fun hr => hnot ⟨h, hr⟩

/-- A copying `put_with` returns what `put` returns and leaves the same operation
bytes, but it leaves the same batch only if its record is rejected. Over a mix of
calls the count, in its field and in the header, is the number of records, and
covers them, exactly when no `put_with` is accepted. -/
theorem put_with_agrees_iff_rejected (hb : b.Reached) (cf_id : BitVec 64) {key value : List Byte}
    {f : DeferredFn} (hf : f.Copies key value) {start : BatchInner}
    (hstart : Fresh start ∨ ∃ old : BatchInner, old.Reached ∧ old.clear = some start)
    (calls : List Call) :
    (let plain := outcome (BatchInner.put cf_id key value) b
      let deferred := outcome (BatchInner.put_with cf_id key.length value.length .Put f) b
      deferred.map Prod.fst = plain.map Prod.fst ∧
        deferred.map (fun r => r.2.operations) = plain.map (fun r => r.2.operations) ∧
        (deferred = plain ↔ (b.rejection key.length value.length).isSome)) ∧
    ∃ b' records, run_calls calls start = some b' ∧
      wire.read_to_end read_record (b'.buffer.drop BatchInner.HEADER_SIZE) = some records ∧
      (b'.buffer.take BatchInner.HEADER_SIZE).drop BatchInner.BATCH_COUNT_OFFSET =
        wire.to_le_bytes 4 b'.count ∧
      (b'.count.toNat = records.length ↔ DeferredRejected calls start) ∧
      (records.length ≤ b'.get_batch_count.toNat ↔ DeferredRejected calls start) := by
  refine ⟨deferred_outcome hb hf cf_id, ?_⟩
  have hrecorded : Recorded [] start ∧ start.count = 0 := by
    obtain hfresh | ⟨old, hold, hclear⟩ := hstart
    · refine ⟨fresh_recorded hfresh, ?_⟩
      rw [hfresh.eq_new]
      rfl
    · obtain ⟨records, hrecorded⟩ := hold.recorded
      obtain ⟨hcleared, -, hcount⟩ := hrecorded.clear hclear
      exact ⟨hcleared, hcount⟩
  obtain ⟨b', records, uncounted, hrun, hb', hcount, hiff⟩ :=
    run_calls_recorded calls hrecorded.1
  rw [hrecorded.2, List.length_nil] at hcount
  change records.length + 0 = 0 + b'.count.toNat + uncounted at hcount
  refine ⟨b', records, hrun, hb'.parses, ?_, ?_, ?_⟩
  · obtain ⟨seq, hseq, hbuffer⟩ := hb'.buffer
    have hheader : (seq ++ wire.to_le_bytes 4 b'.count).length = BatchInner.HEADER_SIZE := by
      rw [List.length_append, wire.length_to_le_bytes, hseq]
      rfl
    rw [hbuffer, ← hheader, List.take_left, ← hseq, List.drop_left]
  · rw [← hiff]
    omega
  · rw [← hiff, BatchInner.get_batch_count]
    omega

theorem put_with_agrees_iff_rejected_new :
    (outcome (BatchInner.put_with 0#64 1 1 .Put (.copy_key_value [1#8] [2#8])) BatchInner.new =
        outcome (BatchInner.put 0#64 [1#8] [2#8]) BatchInner.new ↔
      (BatchInner.new.rejection 1 1).isSome) ∧
    ∃ b' records, run_calls [.put ⟨0#64, [1#8], [2#8]⟩] BatchInner.new = some b' ∧
      wire.read_to_end read_record (b'.buffer.drop BatchInner.HEADER_SIZE) = some records := by
  have hnew : Fresh BatchInner.new := .inl rfl
  have hcopies : DeferredFn.Copies [1#8] [2#8] (.copy_key_value [1#8] [2#8]) := .inl rfl
  obtain ⟨⟨-, -, hsame⟩, b', records, hrun, hparses, -⟩ :=
    put_with_agrees_iff_rejected (.fresh hnew) 0#64 hcopies (.inl hnew)
      [.put ⟨0#64, [1#8], [2#8]⟩]
  exact ⟨hsame, b', records, hrun, hparses⟩

/-- The same record in a new batch: `put` counts it and `put_with` does not. -/
theorem put_with_leaves_count : ∃ b : BatchInner, b.Reached ∧
    ∃ key value f, DeferredFn.Copies key value f ∧
      (outcome (BatchInner.put 0#64 key value) b).map (fun r => r.2.count) = some 1#32 ∧
      (outcome (BatchInner.put_with 0#64 key.length value.length .Put f) b).map
        (fun r => (r.2.count, r.2.data)) =
        some (0#32, List.replicate 12 0#8 ++ Record.encode ⟨.Put, 0#64, key, value⟩) := by
  refine ⟨BatchInner.new, .fresh (.inl rfl), [1#8], [2#8], _, .inl rfl, ?_, ?_⟩
  · decide +kernel
  · decide +kernel

end mix

end ordinum.batch
