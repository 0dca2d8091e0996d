import Ordinum.Interleaving.LockFree
import Ordinum.Memtable.Linearization
import Ordinum.Utils.SkipLists.InsertProgress

open interleaving interleaving.System
open ordinum.key ordinum.mem_skip_list ordinum.utils

namespace ordinum.memtable

variable {Tid : Type}

/-- The weak exchange on `max_level` fails for no reason. -/
def fails_spuriously : StepCondition Tid (ObservingAct InsertAct GetAct) SkipList
    (Observing InsertThread GetThread) := fun _ a _ l =>
  a = .own (.step true) ∧ ∃ call ctx height max_height,
    l.own.running = some (call, .cas_max_level ctx height max_height)

section threads

variable {s : SkipList} {levels : Nat → List NodePtr} {l : Observing InsertThread GetThread}
  {t : Tid} (hs : Towers InternalKeyComparator s levels)

include hs

end threads

section others

variable {s s' : SkipList} {l : Observing InsertThread GetThread}

end others

variable [Fintype Tid] [DecidableEq Tid]

end ordinum.memtable
