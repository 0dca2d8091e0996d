import Mathlib.Data.List.Induction
import Ordinum.Memtable.Versions

open interleaving interleaving.System
open ordinum.key ordinum.mem_skip_list ordinum.utils

namespace ordinum.memtable

variable {inserts : List Insert} {c d : Config Unit SkipList InsertThread}

section filling

theorem Insert.fits (i : Insert) : i.call.KeyFits := by
  have hfits := i.version.fits
  change (key.encode i.version.user_key i.version.seq_no i.version.kind).length < 2 ^ 16
  rw [key.encode, List.length_append, encode_trailer, wire.length_to_be_bytes]
  exact hfits

theorem keys_fit_of_version_inserts (t : Unit) (a : InsertAct) (s : SkipList) (l : InsertThread)
    (h : version_inserts t a s l) : keys_fit t a s l := by
  intro call ha
  obtain ⟨i, rfl⟩ := h.1 call ha
  exact i.fits

theorem version_inserts_of_only (t : Unit) (a : InsertAct) (s : SkipList) (l : InsertThread)
    (h : only () t a s l) : version_inserts t a s l := by
  obtain ⟨-, rfl⟩ := h
  exact ⟨fun _ h => (by cases h), fun _ _ _ _ => rfl⟩

theorem Filled.fits (h : Filled inserts c) :
    (skip_list_system InternalKeyComparator Unit).ReachableUnder keys_fit c :=
  h.reachable.mono keys_fit_of_version_inserts

/-- An insert that has begun returns, once its exchanges stop failing without a
reason. -/
theorem insert_returns
    (hc : (skip_list_system InternalKeyComparator Unit).ReachableUnder version_inserts c)
    {call : InsertCall} {pc : InsertPc} (hrunning : (c.threads ()).running = some (call, pc)) :
    ∃ d node, (skip_list_system InternalKeyComparator Unit).StepsUnder (only ()) c d ∧
      (d.threads ()).running = none ∧
      (d.threads ()).returned = (c.threads ()).returned ++ [(call, node)] :=
  returns_alone (hc.mono keys_fit_of_version_inserts) hrunning

theorem Filled.insert (h : Filled inserts c) (i : Insert) :
    ∃ d, Filled (inserts ++ [i]) d := by
  have hthread : c.threads () = { running := none, returned := (c.threads ()).returned } := by
    rw [← h.idle]
  have hstart : skip_list_step InternalKeyComparator (.start i.call) c.shared (c.threads ()) =
      some (c.shared,
        { running := some (i.call, i.call.start), returned := (c.threads ()).returned }) := by
    rw [hthread]
    rfl
  have hreach := h.reachable.tail ⟨(), .start i.call, _, ⟨fun call hcall => ⟨i, ?_⟩, ?_⟩, hstart, rfl⟩
  · obtain ⟨d, node, hsteps, hidle, hreturned⟩ := insert_returns hreach
      (by rw [Config.move_threads_self])
    rw [Config.move_threads_self] at hreturned
    refine ⟨d, hreach.trans (hsteps.mono version_inserts_of_only), hidle, ?_⟩
    rw [hreturned, List.map_append, h.inserts, List.map_append]
    rfl
  · cases hcall
    rfl
  · intro call ctx height hrunning
    rw [h.idle] at hrunning
    cases hrunning

/-- Every sequence of inserts can be made. -/
theorem exists_filled (inserts : List Insert) : ∃ c, Filled inserts c := by
  induction inserts using List.reverseRecOn with
  | nil => exact ⟨_, .init, rfl, rfl⟩
  | append_singleton inserts i ih =>
    obtain ⟨c, hc⟩ := ih
    exact hc.insert i

end filling

section contents

/-- What is read back of a value. -/
def Insert.stored (i : Insert) : Insert :=
  { i with value := i.value.take (i.value.length % 2 ^ 32) }

/-- Every inserted version is on the base level. -/
theorem Filled.linked (h : Filled inserts c) {i : Insert} (hi : i ∈ inserts) :
    ∃ node, OnLevel c.shared 0 node ∧ (c.shared.nodes node).key = i.version.encode := by
  have hmem : i.call ∈ (c.threads ()).returned.map Prod.fst := by
    rw [h.inserts]
    exact List.mem_map_of_mem hi
  obtain ⟨⟨call, node⟩, he, rfl⟩ := List.mem_map.mp hmem
  exact ⟨node, ((insert_outline_holds h.fits).thread ()).returned _ node he⟩

/-- Every node of the base level holds the first insert of its version. -/
theorem Filled.first (h : Filled inserts c) {node : NodePtr} (hnode : OnLevel c.shared 0 node) :
    ∃ before i after, inserts = before ++ i :: after ∧
      (∀ j ∈ before, j.version ≠ i.version) ∧
      (c.shared.nodes node).key = i.version.encode ∧
      (c.shared.nodes node).value = i.stored.value := by
  have hidle : (c.threads ()).own = none := by rw [InsertThread.own, h.idle]; rfl
  obtain ⟨before, call, after, hreturned, hbefore, hwritten⟩ :=
    ((history_ok h.fits).first node hnode).resolve_left fun h => by cases hidle.symm.trans h
  have hinserts := h.inserts
  rw [hreturned, List.map_append, List.map_cons, eq_comm, List.map_eq_append_iff] at hinserts
  obtain ⟨ibefore, irest, rfl, hibefore, hirest⟩ := hinserts
  obtain ⟨i, iafter, rfl, rfl, -⟩ := List.map_eq_cons_iff.mp hirest
  refine ⟨ibefore, i, iafter, rfl, ?_, ?_, ?_⟩
  · intro j hj heq
    have hmem : j.call ∈ before.map Prod.fst := by
      rw [← hibefore]
      exact List.mem_map_of_mem hj
    obtain ⟨e, he, hcall⟩ := List.mem_map.mp hmem
    apply hbefore e he
    rw [hcall]
    exact congrArg Version.encode heq
  · rw [hwritten, Node.write_key i.fits]
    rfl
  · rw [hwritten]
    rfl

end contents

section read

variable {user_key : List Byte} {snapshot : BitVec 64}

/-- What `first_ge` finds in a memtable at rest: the first node that is not left
of the key. -/
structure FirstGe (s : SkipList) (key : List Byte) (found : Option NodePtr) : Prop where
  right : ∀ node, found = some node → OnLevel s 0 node ∧
    InternalKeyComparator.compare (s.nodes node).key key ≠ .lt
  first : ∀ node, OnLevel s 0 node → InternalKeyComparator.compare (s.nodes node).key key = .lt ∨
    ∃ x, found = some x ∧ (node = x ∨ KeyLt InternalKeyComparator s x node)

theorem Filled.first_ge (h : Filled inserts c) (key : List Byte) :
    ∃ found, FirstGe c.shared key found ∧ ∃ enough, ∀ fuel, enough ≤ fuel →
      memtable.first_ge fuel c.shared key =
        some (found.map fun node => ((c.shared.nodes node).key, (c.shared.nodes node).value)) := by
  obtain ⟨levels, hs⟩ := (insert_outline_holds h.fits).shared
  have hheights := ((heights_outline_valid InternalKeyComparator).holds_of_trivial
    h.reachable).shared
  have hload : SearchOk InternalKeyComparator c.shared key .load_max_level := trivial
  obtain ⟨ctx, hsearch, hcurrent⟩ := search_ends hs hload
  have hctx := (Finishes.ctxOk hs hload hsearch).2
  have hnext := hcurrent ⟨rfl, fun l hl => hheights.next_sentinel hs hl⟩ 0 (Nat.le_refl 0)
  obtain ⟨enough, hrun⟩ := hsearch.run_alone _ rfl
  refine ⟨ctx.successors 0, ⟨hctx.successors 0, fun node hnode => ?_⟩, enough, fun fuel hfuel => ?_⟩
  · rw [← hnext]
    exact hs.position (hctx.predecessors 0) hnode
  · rw [memtable.first_ge, hrun fuel hfuel]
    rfl

/-- Nothing to the right of the lookup key belongs to its user key. -/
theorem no_visible (h : Filled inserts c) (hsnapshot : snapshot.toNat < 2 ^ 56)
    {found : Option NodePtr}
    (hfound : FirstGe c.shared (key.encode user_key snapshot .Max) found)
    (hother : ∀ node i, found = some node → i ∈ inserts →
      (c.shared.nodes node).key = i.version.encode → i.version.user_key ≠ user_key) :
    ∀ i ∈ inserts, ¬ i.version.Visible user_key snapshot := by
  intro i hi hvisible
  obtain ⟨huser, hright⟩ := (Version.visible_iff hsnapshot).mp hvisible
  obtain ⟨node, hnode, hkey⟩ := h.linked hi
  obtain hleft | ⟨x, rfl, rfl | hlt⟩ := hfound.first node hnode
  · rw [hkey] at hleft
    exact hright hleft
  · exact hother node i rfl hi hkey huser
  · obtain ⟨hx, hxright⟩ := hfound.right x rfl
    obtain ⟨before, j, after, hinserts, -, hjkey, -⟩ := h.first hx
    rw [KeyLt, hjkey, hkey] at hlt
    rw [hjkey, ← huser] at hxright
    apply hother x j rfl (by rw [hinserts]; simp) hjkey
    rw [Version.user_key_between hsnapshot hxright hlt, huser]

/-- The first version that is not left of the lookup key is the answer. -/
theorem newest_answers (h : Filled inserts c) (hsnapshot : snapshot.toNat < 2 ^ 56) {x : NodePtr}
    (hfound : FirstGe c.shared (key.encode user_key snapshot .Max) (some x))
    {before after : List Insert} {i : Insert} (hinserts : inserts = before ++ i :: after)
    (hbefore : ∀ j ∈ before, j.version ≠ i.version)
    (hkey : (c.shared.nodes x).key = i.version.encode) (huser : i.version.user_key = user_key)
    {ret : MemReturn} (hret : MemReturn.of_kind i.stored.value i.version.kind = some ret) :
    Answers (inserts.map Insert.stored) user_key snapshot ret := by
  obtain ⟨hx, hright⟩ := hfound.right x rfl
  rw [hkey] at hright
  have hstored : inserts.map Insert.stored =
      before.map Insert.stored ++ i.stored :: after.map Insert.stored := by
    rw [hinserts, List.map_append, List.map_cons]
  refine .newest hstored ?_ ((Version.visible_iff hsnapshot).mpr ⟨huser, hright⟩) ?_ hret
  · intro j hj
    obtain ⟨j', hj', rfl⟩ := List.mem_map.mp hj
    exact hbefore j' hj'
  · intro j hj hvisible
    obtain ⟨j', hj', rfl⟩ := List.mem_map.mp hj
    obtain ⟨node, hnode, hjkey⟩ := h.linked hj'
    obtain hleft | ⟨y, hy, hyx⟩ := hfound.first node hnode
    · rw [hjkey] at hleft
      exact absurd hleft ((Version.visible_iff hsnapshot).mp hvisible).2
    · obtain rfl : x = y := Option.some.inj hy
      obtain rfl | hlt := hyx
      · rw [show j'.stored.version = i.stored.version from
          Version.encode_injective (hjkey.symm.trans hkey), Version.notAfter_iff]
      · rw [KeyLt, hkey, hjkey] at hlt
        exact Version.notAfter_of_lt (huser.trans hvisible.1.symm) hlt

/-- A read answers with the values as they are stored. -/
theorem get_answers (h : Filled inserts c) (user_key : List Byte)
    {snapshot : BitVec 64} (hsnapshot : snapshot.toNat < 2 ^ 56) :
    ∃ ret, Answers (inserts.map Insert.stored) user_key snapshot ret ∧ ∃ enough, ∀ fuel,
      enough ≤ fuel → get fuel c.shared (key.encode user_key snapshot .Max) = some ret := by
  obtain ⟨found, hfound, enough, hfirst_ge⟩ := h.first_ge (key.encode user_key snapshot .Max)
  have hlookup := from_key_encode user_key .Max hsnapshot
  have hnone : (∀ i ∈ inserts, ¬ i.version.Visible user_key snapshot) →
      Answers (inserts.map Insert.stored) user_key snapshot .NotFound := by
    intro hnone
    refine .not_found fun i hi => ?_
    obtain ⟨j, hj, rfl⟩ := List.mem_map.mp hi
    exact hnone j hj
  cases hx : found with
  | none =>
    refine ⟨.NotFound, hnone (no_visible h hsnapshot hfound fun node _ hnode => ?_), enough,
      fun fuel hfuel => ?_⟩
    · cases hx.symm.trans hnode
    · simp [get, hfirst_ge fuel hfuel, hx]
  | some x =>
    rw [hx] at hfound hfirst_ge
    obtain ⟨hnode, -⟩ := hfound.right x rfl
    obtain ⟨before, i, after, hinserts, hbefore, hkey, hvalue⟩ := h.first hnode
    have hskip := from_key_encode i.version.user_key i.version.kind i.version.seq_no_lt
    rw [← Version.encode, ← hkey] at hskip
    by_cases huser : i.version.user_key = user_key
    · obtain ⟨ret, hret⟩ := i.version.of_kind i.stored.value
      refine ⟨ret, newest_answers h hsnapshot hfound hinserts hbefore hkey huser hret, enough,
        fun fuel hfuel => ?_⟩
      simp only [get, hfirst_ge fuel hfuel, Option.map_some, hskip, hlookup, huser, hvalue,
        Option.bind_eq_bind, Option.bind_some, ne_eq, not_true, if_false, i.version.try_from_kind]
      exact hret
    · refine ⟨.NotFound, hnone (no_visible h hsnapshot hfound fun node j hnode' hj hjkey => ?_),
        enough, fun fuel hfuel => ?_⟩
      · obtain rfl : x = node := Option.some.inj hnode'
        rw [← Version.encode_injective (hkey.symm.trans hjkey)]
        exact huser
      · simp only [get, hfirst_ge fuel hfuel, Option.map_some, hskip, hlookup,
          Option.bind_eq_bind, Option.bind_some]
        rw [if_pos huser]

end read

/-- Short values are stored as they are. -/
theorem map_stored (hvalues : ∀ i ∈ inserts, i.value.length < 2 ^ 32) :
    inserts.map Insert.stored = inserts := by
  have hsame : ∀ i ∈ inserts, i.stored = i := by
    intro i hi
    rw [Insert.stored, Nat.mod_eq_of_lt (hvalues i hi), List.take_length]
  rw [List.map_congr_left hsame, List.map_id']

/-- After any sequence of inserts, whose calls return, a read at any snapshot
returns the newest version that the snapshot may see. -/
theorem memtable_reads (inserts : List Insert)
    (hvalues : ∀ i ∈ inserts, i.value.length < 2 ^ 32) :
    (∃ c, Filled inserts c) ∧
    (∀ c call pc,
      (skip_list_system InternalKeyComparator Unit).ReachableUnder version_inserts c →
      (c.threads ()).running = some (call, pc) →
      ∃ d node, (skip_list_system InternalKeyComparator Unit).StepsUnder (only ()) c d ∧
        (d.threads ()).running = none ∧
        (d.threads ()).returned = (c.threads ()).returned ++ [(call, node)]) ∧
    ∀ c, Filled inserts c → ∀ user_key (snapshot : BitVec 64), snapshot.toNat < 2 ^ 56 →
      ∃ ret, Answers inserts user_key snapshot ret ∧ ∃ enough, ∀ fuel, enough ≤ fuel →
        get fuel c.shared (key.encode user_key snapshot .Max) = some ret := by
  refine ⟨exists_filled inserts, fun c call pc hc hrunning => insert_returns hc hrunning, ?_⟩
  intro c hc user_key snapshot hsnapshot
  have hanswers := get_answers hc user_key hsnapshot
  rwa [map_stored hvalues] at hanswers

/-- A put of the empty user key. -/
def first_put : Version := ⟨[], 1, .Put, by decide, .inl rfl, by decide⟩

/-- A delete of the same user key. -/
def later_delete : Version := ⟨[], 3, .Delete, by decide, .inr (.inl rfl), by decide⟩

/-- Of two puts of one version the first is read, below the delete that follows. -/
theorem memtable_reads_below_delete :
    ∃ c, Filled [⟨first_put, [1]⟩, ⟨first_put, [2]⟩, ⟨later_delete, []⟩] c ∧
      ∃ enough, ∀ fuel, enough ≤ fuel →
        get fuel c.shared (key.encode [] 2 .Max) = some (.Value [1]) := by
  obtain ⟨⟨c, hc⟩, -, hreads⟩ :=
    memtable_reads [⟨first_put, [1]⟩, ⟨first_put, [2]⟩, ⟨later_delete, []⟩] (by decide)
  obtain ⟨ret, hret, hget⟩ := hreads c hc [] 2 (by decide)
  have hfirst : Answers [⟨first_put, [1]⟩, ⟨first_put, [2]⟩, ⟨later_delete, []⟩] [] 2
      (.Value [1]) := by
    refine .newest (List.nil_append _).symm (fun _ h => absurd h List.not_mem_nil)
      ⟨rfl, by decide⟩ ?_ rfl
    intro j hj hvisible
    obtain rfl | hj := List.mem_cons.mp hj
    · exact .inr ⟨rfl, Nat.le_refl _⟩
    · obtain rfl | hj := List.mem_cons.mp hj
      · exact .inr ⟨rfl, Nat.le_refl _⟩
      · obtain rfl := List.mem_singleton.mp hj
        exact absurd hvisible.2 (by decide)
  rw [hret.unique hfirst] at hget
  exact ⟨c, hc, hget⟩

/-- The length of a value is stored in 32 bits: `2 ^ 32` bytes are read back as
none. -/
theorem long_value_lost (value : List Byte) (hlength : value.length = 2 ^ 32) :
    ∃ c, Filled [⟨first_put, value⟩] c ∧
      (∃ enough, ∀ fuel, enough ≤ fuel →
        get fuel c.shared (key.encode [] 1 .Max) = some (.Value [])) ∧
      ¬ Answers [⟨first_put, value⟩] [] 1 (.Value []) := by
  have hanswers : ∀ value, Answers [⟨first_put, value⟩] [] 1 (.Value value) := by
    intro value
    refine .newest (List.nil_append _).symm (fun _ h => absurd h List.not_mem_nil)
      ⟨rfl, Nat.le_refl _⟩ ?_ rfl
    intro j hj _
    rw [List.mem_singleton.mp hj]
    exact .inr ⟨rfl, Nat.le_refl _⟩
  obtain ⟨c, hc⟩ := exists_filled [⟨first_put, value⟩]
  obtain ⟨ret, hret, hget⟩ := get_answers hc [] (show (1 : BitVec 64).toNat < 2 ^ 56 by decide)
  have hstored : Insert.stored ⟨first_put, value⟩ = ⟨first_put, []⟩ := by
    rw [Insert.stored, hlength, Nat.mod_self, List.take_zero]
  rw [List.map_singleton, hstored] at hret
  rw [hret.unique (hanswers [])] at hget
  refine ⟨c, hc, hget, fun hempty => ?_⟩
  rw [← MemReturn.Value.inj (hempty.unique (hanswers value)), List.length_nil] at hlength
  exact absurd hlength (by decide)

theorem zero_bytes_lost :
    ∃ c, Filled [⟨first_put, List.replicate (2 ^ 32) 0⟩] c ∧
      (∃ enough, ∀ fuel, enough ≤ fuel →
        get fuel c.shared (key.encode [] 1 .Max) = some (.Value [])) ∧
      ¬ Answers [⟨first_put, List.replicate (2 ^ 32) 0⟩] [] 1 (.Value []) :=
  long_value_lost _ List.length_replicate

end ordinum.memtable
