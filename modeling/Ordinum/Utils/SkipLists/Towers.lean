import Mathlib.Data.List.Sort
import Ordinum.Linked.Chain
import Ordinum.Utils.SkipLists.MemSkipList

open ordinum.key ordinum.utils

namespace ordinum.mem_skip_list

/-- The nodes linked at a level, in the order of the chain from the sentinel. -/
def IsLevel (s : SkipList) (level : Nat) (xs : List NodePtr) : Prop :=
  linked.IsChain (fun node => s.next node level) (some sentinel) (sentinel :: xs)

/-- The node can be reached from the sentinel at the level. -/
def OnLevel (s : SkipList) (level : Nat) (node : NodePtr) : Prop :=
  ∃ xs, IsLevel s level xs ∧ node ∈ xs

variable (cmp : Comparator)

def KeyLt (s : SkipList) (a b : NodePtr) : Prop :=
  cmp.compare (s.nodes a).key (s.nodes b).key = .lt

/-- The list between two atomic accesses: every level is a chain that strictly
increases and passes through nodes of the level below that are high enough. -/
structure Towers (s : SkipList) (levels : Nat → List NodePtr) : Prop where
  chain : ∀ l, IsLevel s l (levels l)
  sorted : ∀ l, (levels l).Pairwise (KeyLt cmp s)
  below : ∀ l, levels (l + 1) ⊆ levels l
  node : ∀ l, ∀ n ∈ levels l, n < s.allocated ∧ l < (s.nodes n).height
  sentinel_allocated : sentinel < s.allocated
  max_level : s.max_level ≤ MAX_HEAD_HEIGHT

variable {cmp} {s s' : SkipList} {levels : Nat → List NodePtr}

namespace Towers

variable (hs : Towers cmp s levels)

include hs

theorem onLevel_iff {l : Nat} {n : NodePtr} : OnLevel s l n ↔ n ∈ levels l := by
  constructor
  · rintro ⟨xs, hxs, hmem⟩
    obtain rfl : xs = levels l := List.tail_eq_of_cons_eq (hxs.unique (hs.chain l))
    exact hmem
  · exact fun hmem => ⟨_, hs.chain l, hmem⟩

theorem ne_sentinel {l : Nat} {n : NodePtr} (hn : OnLevel s l n) : n ≠ sentinel := by
  rintro rfl
  exact (List.nodup_cons.mp (hs.chain l).nodup).1 (hs.onLevel_iff.mp hn)

theorem onLevel_of_le {l l' : Nat} {n : NodePtr} (hle : l' ≤ l) (hn : OnLevel s l n) :
    OnLevel s l' n := by
  induction hle with
  | refl => exact hn
  | step _ ih => exact ih (hs.onLevel_iff.mpr (hs.below _ (hs.onLevel_iff.mp hn)))

/-- No key occurs twice. -/
theorem eq_of_key {l : Nat} {a b : NodePtr} (ha : OnLevel s l a) (hb : OnLevel s l b)
    (hkey : (s.nodes a).key = (s.nodes b).key) : a = b := by
  have hne : ∀ x y, KeyLt cmp s x y → (s.nodes x).key ≠ (s.nodes y).key := by
    intro x y hlt heq
    rw [KeyLt, heq] at hlt
    exact cmp.lt_irrefl _ hlt
  have hall := List.Pairwise.forall_of_forall_of_flip
    (R := fun x y => (s.nodes x).key = (s.nodes y).key → x = y) (fun _ _ _ => rfl)
    ((hs.sorted l).imp fun hlt heq => absurd heq (hne _ _ hlt))
    ((hs.sorted l).imp fun hlt heq => absurd heq.symm (hne _ _ hlt))
  exact hall (hs.onLevel_iff.mp ha) (hs.onLevel_iff.mp hb) hkey

theorem sublist (l : Nat) : (levels (l + 1)).Sublist (levels l) := by
  have hantisymm : Std.Antisymm (KeyLt cmp s) :=
    ⟨fun a b hab hba => absurd (cmp.lt_trans hab hba) (cmp.lt_irrefl _)⟩
  have hnodup := (List.nodup_cons.mp (hs.chain (l + 1)).nodup).2
  exact List.sublist_of_subperm_of_pairwise (List.subperm_of_subset hnodup (hs.below l))
    (hs.sorted (l + 1)) (hs.sorted l)

/-- A predecessor splits its level. -/
theorem split {l : Nat} {pred : NodePtr} (hpred : pred = sentinel ∨ OnLevel s l pred) :
    ∃ before after, levels l = before ++ after ∧ s.next pred l = after.head? ∧
      (before = [] ∧ pred = sentinel ∨ ∃ front, before = front ++ [pred]) := by
  obtain rfl | hpred := hpred
  · exact ⟨[], levels l, rfl, (hs.chain l).2.head?, .inl ⟨rfl, rfl⟩⟩
  · obtain ⟨front, after, hsplit⟩ := List.append_of_mem (hs.onLevel_iff.mp hpred)
    have hchain : linked.IsChain (fun node => s.next node l) (some sentinel)
        ((sentinel :: front) ++ pred :: after) := by
      rw [List.cons_append, ← hsplit]
      exact hs.chain l
    exact ⟨front ++ [pred], after, by simp [hsplit], hchain.tail.head?, .inr ⟨front, rfl⟩⟩

/-- The successor of a node on a level is on that level. -/
theorem next_onLevel {l : Nat} {pred n : NodePtr} (hpred : pred = sentinel ∨ OnLevel s l pred)
    (hnext : s.next pred l = some n) : OnLevel s l n := by
  obtain ⟨before, after, hsplit, hhead, -⟩ := hs.split hpred
  rw [hnext] at hhead
  rw [hs.onLevel_iff, hsplit]
  exact List.mem_append_right before (List.mem_of_mem_head? hhead.symm)

end Towers

/-- What no step takes back: nodes stay as they are and where they are. -/
structure Grows (s s' : SkipList) : Prop where
  allocated : s.allocated ≤ s'.allocated
  nodes : ∀ n, n < s.allocated → s'.nodes n = s.nodes n
  onLevel : ∀ l n, OnLevel s l n → OnLevel s' l n

theorem Grows.refl (s : SkipList) : Grows s s :=
  ⟨Nat.le_refl _, fun _ _ => rfl, fun _ _ => id⟩

theorem Grows.trans {s₁ s₂ s₃ : SkipList} (h₁ : Grows s₁ s₂) (h₂ : Grows s₂ s₃) : Grows s₁ s₃ :=
  ⟨h₁.allocated.trans h₂.allocated,
    fun n hn => (h₂.nodes n (hn.trans_le h₁.allocated)).trans (h₁.nodes n hn),
    fun l n hn => h₂.onLevel l n (h₁.onLevel l n hn)⟩

/-- The node `n` can be linked in after `pred`: it lies between `pred` and its
successor, and is linked at all levels below and nowhere else. -/
structure Linkable (cmp : Comparator) (s : SkipList) (n : NodePtr) (l : Nat) (pred : NodePtr) :
    Prop where
  left : pred = sentinel ∨ OnLevel s l pred ∧ KeyLt cmp s pred n
  right : ∀ x, s.next pred l = some x → KeyLt cmp s n x
  next : s.next n l = s.next pred l
  ne_sentinel : n ≠ sentinel
  allocated : n < s.allocated
  height : l < (s.nodes n).height
  unlinked : ¬ OnLevel s l n
  below : ∀ l', l' < l → OnLevel s l' n

/-- What one atomic access does to the towers: nothing, allocate a node, write the
tower of a node above its linked levels, or link it in at a level. -/
inductive TowerStep (cmp : Comparator) (s : SkipList) : Option NodePtr → SkipList → Prop where
  | quiet {own s'} (hnodes : s'.nodes = s.nodes) (hnext : s'.next = s.next)
      (hallocated : s'.allocated = s.allocated) (hmax : s'.max_level ≤ MAX_HEAD_HEIGHT) :
    TowerStep cmp s own s'
  | alloc {own} (node : Node) :
    TowerStep cmp s own { s with
      allocated := s.allocated + 1
      nodes := Function.update s.nodes s.allocated node
      next := Function.update s.next s.allocated fun _ => none }
  | store {n l succ} (hn : n ≠ sentinel) (hunlinked : ¬ OnLevel s l n) :
    TowerStep cmp s (some n) (s.set_next n l succ)
  | link {n l pred} (hlink : Linkable cmp s n l pred) :
    TowerStep cmp s (some n) (s.set_next pred l (some n))

section set_next

@[simp] theorem set_next_nodes (s : SkipList) (n : NodePtr) (l : Nat) (succ : Option NodePtr) :
    (s.set_next n l succ).nodes = s.nodes := rfl

@[simp] theorem set_next_allocated (s : SkipList) (n : NodePtr) (l : Nat)
    (succ : Option NodePtr) : (s.set_next n l succ).allocated = s.allocated := rfl

@[simp] theorem set_next_max_level (s : SkipList) (n : NodePtr) (l : Nat)
    (succ : Option NodePtr) : (s.set_next n l succ).max_level = s.max_level := rfl

/-- At the level that is written. -/
theorem set_next_same (s : SkipList) (n : NodePtr) (l : Nat) (succ : Option NodePtr) :
    (fun node => (s.set_next n l succ).next node l) =
      Function.update (fun node => s.next node l) n succ := by
  funext node
  by_cases hn : node = n
  · subst hn
    simp [SkipList.set_next]
  · simp [SkipList.set_next, hn]

/-- The other levels keep their links. -/
theorem set_next_other (s : SkipList) (n : NodePtr) {l l' : Nat} (succ : Option NodePtr)
    (hne : l' ≠ l) : (fun node => (s.set_next n l succ).next node l') =
      fun node => s.next node l' := by
  funext node
  by_cases hn : node = n
  · subst hn
    simp [SkipList.set_next, hne]
  · simp [SkipList.set_next, hn]

end set_next

namespace Towers

/-- Steps that link no node leave every level as it is. -/
theorem same_levels (hs : Towers cmp s levels)
    (hnodes : ∀ n, n < s.allocated → s'.nodes n = s.nodes n)
    (hallocated : s.allocated ≤ s'.allocated) (hmax : s'.max_level ≤ MAX_HEAD_HEIGHT)
    (hnext : ∀ l, ∀ n, n = sentinel ∨ n ∈ levels l → s'.next n l = s.next n l) :
    Towers cmp s' levels := by
  refine ⟨?_, ?_, hs.below, ?_, hs.sentinel_allocated.trans_le hallocated, hmax⟩
  · intro l
    apply (hs.chain l).frame
    intro n hn
    exact hnext l n (List.mem_cons.mp hn)
  · intro l
    apply (hs.sorted l).imp_of_mem
    intro a b ha hb hlt
    rw [KeyLt, hnodes a (hs.node l a ha).1, hnodes b (hs.node l b hb).1]
    exact hlt
  · intro l n hn
    obtain ⟨hlt, hheight⟩ := hs.node l n hn
    exact ⟨hlt.trans_le hallocated, by rwa [hnodes n hlt]⟩

theorem quiet (hs : Towers cmp s levels) (hnodes : s'.nodes = s.nodes) (hnext : s'.next = s.next)
    (hallocated : s'.allocated = s.allocated) (hmax : s'.max_level ≤ MAX_HEAD_HEIGHT) :
    Towers cmp s' levels :=
  hs.same_levels (fun n _ => by rw [hnodes]) hallocated.ge hmax fun l n _ => by rw [hnext]

theorem alloc (hs : Towers cmp s levels) (node : Node) :
    Towers cmp { s with
      allocated := s.allocated + 1
      nodes := Function.update s.nodes s.allocated node
      next := Function.update s.next s.allocated fun _ => none } levels := by
  refine hs.same_levels (fun n hn => Function.update_of_ne hn.ne ..) (Nat.le_succ _) hs.max_level ?_
  intro l n hn
  have hlt : n < s.allocated := by
    obtain rfl | hn := hn
    · exact hs.sentinel_allocated
    · exact (hs.node l n hn).1
  simp only [Function.update_of_ne hlt.ne]

theorem store (hs : Towers cmp s levels) {n : NodePtr} {l : Nat} (succ : Option NodePtr)
    (hn : n ≠ sentinel) (hunlinked : ¬ OnLevel s l n) :
    Towers cmp (s.set_next n l succ) levels := by
  refine hs.same_levels (fun _ _ => rfl) (Nat.le_refl _) hs.max_level ?_
  intro l' m hm
  by_cases hl : l' = l
  · subst hl
    have hne : m ≠ n := by
      rintro rfl
      exact hm.elim hn fun hmem => hunlinked (hs.onLevel_iff.mpr hmem)
    rw [congrFun (set_next_same s n l' succ) m, Function.update_of_ne hne]
  · exact congrFun (set_next_other s n succ hl) m

/-- The keys stay in order around a node that is linked in. -/
theorem sorted_link (hs : Towers cmp s levels) {n pred : NodePtr} {l : Nat}
    {before after : List NodePtr} (hsplit : levels l = before ++ after)
    (hhead : s.next pred l = after.head?)
    (hfront : before = [] ∧ pred = sentinel ∨ ∃ front, before = front ++ [pred])
    (hpred : pred = sentinel ∨ KeyLt cmp s pred n)
    (hsucc : ∀ x, s.next pred l = some x → KeyLt cmp s n x) :
    (before ++ n :: after).Pairwise (KeyLt cmp s) := by
  have hsorted := hs.sorted l
  rw [hsplit, List.pairwise_append] at hsorted
  obtain ⟨hbefore, hafter, hacross⟩ := hsorted
  have hright : ∀ y ∈ after, KeyLt cmp s n y := by
    cases after with
    | nil => exact fun y hy => absurd hy List.not_mem_nil
    | cons x rest =>
      have hx := hsucc x hhead
      intro y hy
      obtain rfl | hy := List.mem_cons.mp hy
      · exact hx
      · exact cmp.lt_trans hx ((List.pairwise_cons.mp hafter).1 y hy)
  have hleft : ∀ x ∈ before, KeyLt cmp s x n := by
    obtain ⟨rfl, -⟩ | ⟨front, rfl⟩ := hfront
    · exact fun x hx => absurd hx List.not_mem_nil
    · have hlevel : OnLevel s l pred := hs.onLevel_iff.mpr (by rw [hsplit]; simp)
      have hlt : KeyLt cmp s pred n := hpred.resolve_left (hs.ne_sentinel hlevel)
      intro x hx
      obtain hx | hx := List.mem_append.mp hx
      · exact cmp.lt_trans ((List.pairwise_append.mp hbefore).2.2 x hx pred (by simp)) hlt
      · rwa [List.mem_singleton.mp hx]
  refine List.pairwise_append.mpr ⟨hbefore, List.pairwise_cons.mpr ⟨hright, hafter⟩, ?_⟩
  intro x hx y hy
  obtain rfl | hy := List.mem_cons.mp hy
  · exact hleft x hx
  · exact hacross x hx y hy

/-- Linking a node in at a level puts it between its predecessor and its
successor. -/
theorem link (hs : Towers cmp s levels) {n pred : NodePtr} {l : Nat}
    (hlink : Linkable cmp s n l pred) :
    ∃ levels', Towers cmp (s.set_next pred l (some n)) levels' ∧
      ∀ l' m, m ∈ levels' l' ↔ m ∈ levels l' ∨ l' = l ∧ m = n := by
  obtain ⟨before, after, hsplit, hhead, hfront⟩ := hs.split (hlink.left.imp_right And.left)
  have hiff : ∀ l' m, m ∈ Function.update levels l (before ++ n :: after) l' ↔
      m ∈ levels l' ∨ l' = l ∧ m = n := by
    intro l' m
    by_cases hl : l' = l
    · subst hl
      rw [Function.update_self, hsplit]
      simp only [List.mem_append, List.mem_cons]
      tauto
    · simp [hl]
  refine ⟨_, ⟨?_, ?_, ?_, ?_, hs.sentinel_allocated, hs.max_level⟩, hiff⟩
  · intro l'
    by_cases hl : l' = l
    · subst hl
      have hchain := hs.chain l'
      have hout : n ∉ sentinel :: levels l' :=
        List.not_mem_cons_of_ne_of_not_mem hlink.ne_sentinel fun hmem =>
          hlink.unlinked (hs.onLevel_iff.mpr hmem)
      rw [IsLevel, set_next_same, Function.update_self]
      rw [IsLevel, hsplit] at hchain
      rw [hsplit] at hout
      obtain ⟨rfl, rfl⟩ | ⟨front, rfl⟩ := hfront
      · exact linked.IsChain.insert [] hchain hout hlink.next
      · rw [List.append_assoc] at hchain hout ⊢
        exact linked.IsChain.insert (sentinel :: front) hchain hout hlink.next
    · rw [IsLevel, set_next_other s pred _ hl, Function.update_of_ne hl]
      exact hs.chain l'
  · intro l'
    by_cases hl : l' = l
    · subst hl
      rw [Function.update_self]
      exact hs.sorted_link hsplit hhead hfront (hlink.left.imp_right And.right) hlink.right
    · rw [Function.update_of_ne hl]
      exact hs.sorted l'
  · intro l' m hm
    rw [hiff] at hm ⊢
    obtain hm | ⟨rfl, rfl⟩ := hm
    · exact .inl (hs.below l' hm)
    · exact .inl (hs.onLevel_iff.mp (hlink.below l' (Nat.lt_succ_self l')))
  · intro l' m hm
    obtain hm | ⟨rfl, rfl⟩ := (hiff l' m).mp hm
    · exact hs.node l' m hm
    · exact ⟨hlink.allocated, hlink.height⟩

/-- Every access keeps the towers; only the thread's own node can come onto a
level. -/
theorem step {own : Option NodePtr} (hs : Towers cmp s levels) (h : TowerStep cmp s own s') :
    ∃ levels', Towers cmp s' levels' ∧ ∀ l m, (m ∈ levels l → m ∈ levels' l) ∧
      (m ∈ levels' l → m ∈ levels l ∨ own = some m) := by
  cases h with
  | quiet hnodes hnext hallocated hmax =>
    exact ⟨levels, hs.quiet hnodes hnext hallocated hmax, fun _ _ => ⟨id, .inl⟩⟩
  | alloc node => exact ⟨levels, hs.alloc node, fun _ _ => ⟨id, .inl⟩⟩
  | store hn hunlinked => exact ⟨levels, hs.store _ hn hunlinked, fun _ _ => ⟨id, .inl⟩⟩
  | link hlink =>
    obtain ⟨levels', hs', hiff⟩ := hs.link hlink
    refine ⟨levels', hs', fun l m => ?_⟩
    rw [hiff]
    refine ⟨.inl, ?_⟩
    rintro (hm | ⟨-, rfl⟩)
    · exact .inl hm
    · exact .inr rfl

end Towers

/-- Nothing is taken back. -/
theorem TowerStep.grows {own : Option NodePtr} (hs : Towers cmp s levels)
    (h : TowerStep cmp s own s') : Grows s s' := by
  obtain ⟨levels', hs', hlevels⟩ := hs.step h
  have hlevel : ∀ l n, OnLevel s l n → OnLevel s' l n := fun l n hn =>
    hs'.onLevel_iff.mpr ((hlevels l n).1 (hs.onLevel_iff.mp hn))
  cases h with
  | quiet hnodes _ hallocated => exact ⟨hallocated.ge, fun n _ => by rw [hnodes], hlevel⟩
  | alloc node =>
    exact ⟨Nat.le_succ _, fun n hn => Function.update_of_ne hn.ne .., hlevel⟩
  | store => exact ⟨Nat.le_refl _, fun _ _ => rfl, hlevel⟩
  | link => exact ⟨Nat.le_refl _, fun _ _ => rfl, hlevel⟩

/-- Only the thread's own node can come onto a level. -/
theorem TowerStep.onLevel_or {own : Option NodePtr} (hs : Towers cmp s levels)
    (h : TowerStep cmp s own s') {l : Nat} {n : NodePtr} (hn : OnLevel s' l n) :
    OnLevel s l n ∨ own = some n := by
  obtain ⟨levels', hs', hlevels⟩ := hs.step h
  exact ((hlevels l n).2 (hs'.onLevel_iff.mp hn)).imp_left hs.onLevel_iff.mpr

/-- The tower of a node changes where the node is linked, or at the hands of its
owner. -/
theorem TowerStep.next_eq {own : Option NodePtr} (h : TowerStep cmp s own s') {l : Nat}
    {n : NodePtr} (hn : n ≠ sentinel) (hallocated : n < s.allocated) (hown : own ≠ some n)
    (hunlinked : ¬ OnLevel s l n) : s'.next n l = s.next n l := by
  cases h with
  | quiet _ hnext => rw [hnext]
  | alloc node => simp only [Function.update_of_ne hallocated.ne]
  | @store m l' succ _ _ =>
    have hne : n ≠ m := fun heq => hown (by rw [heq])
    simp [SkipList.set_next, Function.update_of_ne hne]
  | @link m l' pred hlink =>
    by_cases hne : n = pred
    · have hl : l ≠ l' := by
        rintro rfl
        exact hlink.left.elim (fun h => hn (hne.trans h)) fun h => hunlinked (hne ▸ h.1)
      exact congrFun (set_next_other s pred _ hl) n
    · simp [SkipList.set_next, Function.update_of_ne hne]

end ordinum.mem_skip_list
