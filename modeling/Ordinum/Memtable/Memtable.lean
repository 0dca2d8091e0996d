import Ordinum.Key.InternalKey
import Ordinum.Utils.SkipLists.SequentialInsert

open interleaving interleaving.System
open ordinum.key ordinum.mem_skip_list ordinum.utils

namespace ordinum.memtable

inductive MemReturn where
  | NotFound
  | Merge
  | Deleted
  | Value (v : List Byte)
  deriving DecidableEq, Repr

def insert (key value : List Byte) : InsertCall :=
  .insert key value

/-- `none` is out of fuel. -/
def first_ge (fuel : Nat) (s : SkipList) (key : List Byte) :
    Option (Option (List Byte × List Byte)) :=
  (run_alone (search_alone InternalKeyComparator key) fuel s .load_max_level).map fun (_, ctx) =>
    (ctx.successors 0).map fun node => ((s.nodes node).key, (s.nodes node).value)

/-- What an entry of this kind reads as; the other kinds are unreachable. -/
def MemReturn.of_kind (v : List Byte) : InternalKeyKind → Option MemReturn
  | .Put => some (.Value v)
  | .Delete => some .Deleted
  | .Merge => some .Merge
  | _ => none

/-- `none` is out of fuel or a panic. -/
def get (fuel : Nat) (s : SkipList) (key : List Byte) : Option MemReturn := do
  match ← first_ge fuel s key with
  | none => some .NotFound
  | some (skip_key, v) =>
    let sk := InternalKeyRef.from_key skip_key
    let lookup := InternalKeyRef.from_key key
    if sk.user_key ≠ lookup.user_key then some .NotFound
    else match InternalKeyKind.try_from sk.op with
      | .ok kind => MemReturn.of_kind v kind
      | .error _ => none

end ordinum.memtable
