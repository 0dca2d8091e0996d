import Ordinum.Utils.SkipLists.ArenaNodes

open interleaving wire
open ordinum.arena ordinum.key ordinum.utils

namespace ordinum.mem_skip_list

section memory

variable {mem mem' : Memory} {e : Extent} {node : Node} {level : Nat}

/-- The place of a level in a node's tower. -/
def Node.word (start level : Nat) : Extent := ⟨node_at_tower_level start level, layout_ptr.size⟩

theorem Node.word_start (start level : Nat) :
    (Node.word start level).start = start + 8 + level * 8 :=
  rfl

/-- A node of the list, in the bytes of its extent. -/
structure NodeAt (mem : Memory) (e : Extent) (node : Node) : Prop where
  extent : e = Node.extent e.start node.height node.key.length node.value.length
  header : Node.HeaderIs mem e.start (BitVec.ofNat 16 node.height)
    (BitVec.ofNat 16 node.key.length) (BitVec.ofNat 32 node.value.length)
  key : Node.get_key_bytes mem e.start = node.key
  value : Node.get_value_bytes mem e.start = node.value
  height_le : node.height ≤ MAX_HEAD_HEIGHT
  key_lt : node.key.length < 2 ^ 16
  value_lt : node.value.length < 2 ^ 32

namespace NodeAt

theorem size (h : NodeAt mem e node) :
    e.size = 8 + node.height * 8 + node.key.length + node.value.length :=
  congrArg Extent.size h.extent

theorem toNat_height (h : NodeAt mem e node) :
    (BitVec.ofNat 16 node.height).toNat = node.height := by
  have hle := h.height_le
  unfold MAX_HEAD_HEIGHT at hle
  rw [BitVec.toNat_ofNat, Nat.mod_eq_of_lt (by omega)]

theorem toNat_key_len (h : NodeAt mem e node) :
    (BitVec.ofNat 16 node.key.length).toNat = node.key.length := by
  rw [BitVec.toNat_ofNat, Nat.mod_eq_of_lt h.key_lt]

theorem toNat_value_len (h : NodeAt mem e node) :
    (BitVec.ofNat 32 node.value.length).toNat = node.value.length := by
  rw [BitVec.toNat_ofNat, Nat.mod_eq_of_lt h.value_lt]

theorem height_at (h : NodeAt mem e node) : (Node.height_at mem e.start).toNat = node.height := by
  rw [h.header.height, h.toNat_height]

theorem key_ptr (h : NodeAt mem e node) :
    Node.key_ptr mem e.start = e.start + 8 + node.height * 8 := by
  rw [Node.key_ptr, h.height_at]
  rfl

theorem value_ptr (h : NodeAt mem e node) :
    Node.value_ptr mem e.start = e.start + 8 + node.height * 8 + node.key.length := by
  rw [Node.value_ptr, h.key_ptr, h.header.key_len, h.toNat_key_len]

/-- A level's place is between the header and the key. -/
theorem word_within (h : NodeAt mem e node) (hlevel : level < node.height) :
    e.start + 8 ≤ (Node.word e.start level).start ∧
      (Node.word e.start level).start + 8 ≤ e.start + 8 + node.height * 8 ∧
      e.start + 8 + node.height * 8 ≤ e.start + e.size := by
  rw [Node.word_start, h.size]
  omega

/-- Header, key and value depend on their own bytes. -/
theorem congr (h : NodeAt mem e node) (hheader : mem.SameOn mem' ⟨e.start, 8⟩)
    (hentry : mem.SameOn mem'
      ⟨e.start + 8 + node.height * 8, node.key.length + node.value.length⟩) :
    NodeAt mem' e node := by
  have hheader' := h.header.congr hheader
  have hkey : Node.get_key_bytes mem' e.start = Node.get_key_bytes mem e.start := by
    rw [Node.get_key_bytes, Node.get_key_bytes, Node.key_ptr, Node.key_ptr, hheader'.height,
      h.header.height, hheader'.key_len, h.header.key_len, h.toNat_key_len, h.toNat_height]
    apply Memory.read_congr
    intro a hle hlt
    refine hentry a hle ?_
    refine Nat.lt_of_lt_of_le hlt ?_
    exact Nat.add_le_add_left (Nat.le_add_right ..) _
  have hvalue : Node.get_value_bytes mem' e.start = Node.get_value_bytes mem e.start := by
    rw [Node.get_value_bytes, Node.get_value_bytes, Node.value_ptr, Node.value_ptr, Node.key_ptr,
      Node.key_ptr, hheader'.height, h.header.height, hheader'.key_len, h.header.key_len,
      hheader'.value_len, h.header.value_len, h.toNat_key_len, h.toNat_height, h.toNat_value_len]
    apply Memory.read_congr
    intro a hle hlt
    refine hentry a (Nat.le_trans (Nat.le_add_right ..) hle) ?_
    rw [← Nat.add_assoc]
    exact hlt
  exact ⟨h.extent, hheader', hkey.trans h.key, hvalue.trans h.value, h.height_le, h.key_lt,
    h.value_lt⟩

theorem same (h : NodeAt mem e node) (hsame : mem.SameOn mem' e) : NodeAt mem' e node := by
  have hsize := h.size
  apply h.congr
  · refine hsame.mono (Nat.le_refl _) ?_
    show e.start + 8 ≤ e.start + e.size
    omega
  · refine hsame.mono ?_ ?_
    · show e.start ≤ e.start + 8 + node.height * 8
      omega
    · show e.start + 8 + node.height * 8 + (node.key.length + node.value.length) ≤ e.start + e.size
      omega

end NodeAt

theorem load_next_same (hsame : mem.SameOn mem' (Node.word e.start level)) :
    Node.load_next mem' e.start level = Node.load_next mem e.start level := by
  have hread : mem'.read (Node.node_at_tower_level e.start level) layout_ptr.size =
      mem.read (Node.node_at_tower_level e.start level) layout_ptr.size :=
    Memory.read_congr hsame
  rw [Node.load_next, Node.load_next, hread]

/-- A pointer that is stored is loaded. -/
theorem load_next_store_next (mem : Memory) (node level : Nat) {succ : Option Nat}
    (hsucc : ∀ x, succ = some x → 0 < x ∧ x < 2 ^ 64) :
    Node.load_next (Node.store_next mem node level succ) node level = succ := by
  have hread := Memory.read_write mem (Node.node_at_tower_level node level)
    (to_le_bytes layout_ptr.size (BitVec.ofNat 64 (succ.getD 0)))
  rw [length_to_le_bytes] at hread
  have hlt : succ.getD 0 < 2 ^ 64 := by
    cases succ with
    | none => exact Nat.two_pow_pos 64
    | some x => exact (hsucc x rfl).2
  have hbytes : from_le_bytes 64 (to_le_bytes layout_ptr.size (BitVec.ofNat 64 (succ.getD 0))) =
      BitVec.ofNat 64 (succ.getD 0) :=
    from_le_bytes_to_le_bytes 8 (BitVec.ofNat 64 (succ.getD 0)).isLt
  have hword : (from_le_bytes 64 (to_le_bytes layout_ptr.size
      (BitVec.ofNat 64 (succ.getD 0)))).toNat = succ.getD 0 := by
    rw [hbytes, BitVec.toNat_ofNat, Nat.mod_eq_of_lt hlt]
  rw [Node.load_next, Node.store_next, hread, hword]
  cases succ with
  | none => rfl
  | some x => exact if_neg (Nat.ne_of_gt (hsucc x rfl).1)

theorem store_next_changes (mem : Memory) (node level : Nat) (succ : Option Nat) :
    mem.ChangesOnly (Node.store_next mem node level succ) (Node.word node level) := by
  have h := mem.write_changesOnly (Node.node_at_tower_level node level)
    (to_le_bytes layout_ptr.size (BitVec.ofNat 64 (succ.getD 0)))
  rwa [length_to_le_bytes] at h

/-- The places of two levels. -/
theorem word_apart (start : Nat) {level level' : Nat} (hne : level ≠ level') :
    (Node.word start level).Apart (Node.word start level') := by
  have hsize : ∀ l, (Node.word start l).size = 8 := fun _ => rfl
  rw [Extent.Apart, hsize, hsize, Node.word_start, Node.word_start]
  omega

/-- A node that is initialised has null on all its levels. -/
theorem load_next_init_node (mem : Memory) (start : Nat) (height key_len : BitVec 16)
    (value_len : BitVec 32) (hlevel : level < height.toNat) :
    Node.load_next (Node.init_node mem start height key_len value_len) start level = none := by
  have hword : (List.replicate 8 (0 : BitVec 8)).length = layout_ptr.size := rfl
  rw [Node.load_next, Node.init_node, Node.node_at_tower_level, Memory.read_fill hword hlevel]
  rfl

end memory

section points

variable {nodes more : List Extent} {n m a b : Nat}

/-- The address of a node of the list. -/
def Points (nodes : List Extent) (n : NodePtr) (a : Nat) : Prop :=
  (nodes[n]?).map Extent.start = some a

theorem Points.append (h : Points nodes n a) : Points (nodes ++ more) n a := by
  obtain ⟨e, he, hstart⟩ := Option.map_eq_some_iff.mp h
  have hlt := (List.getElem?_eq_some_iff.mp he).1
  rw [Points, List.getElem?_append_left hlt]
  exact h

theorem Points.functional (h : Points nodes n a) (h' : Points nodes n b) : a = b :=
  Option.some.inj (h.symm.trans h')

theorem Points.extent (h : Points nodes n a) : ∃ e, nodes[n]? = some e ∧ e.start = a :=
  Option.map_eq_some_iff.mp h

/-- Nodes are in memory, not at null, and no two of them at one address. -/
structure Placed (nodes : List Extent) : Prop where
  place : ∀ e ∈ nodes, 0 < e.start ∧ e.start + e.size ≤ 2 ^ 64
  apart : nodes.Pairwise Extent.Apart
  not_empty : ∀ e ∈ nodes, 0 < e.size

theorem Placed.apart_of_ne (h : Placed nodes) {e f : Extent} (he : nodes[n]? = some e)
    (hf : nodes[m]? = some f) (hne : n ≠ m) : e.Apart f := by
  obtain ⟨hn, rfl⟩ := List.getElem?_eq_some_iff.mp he
  obtain ⟨hm, rfl⟩ := List.getElem?_eq_some_iff.mp hf
  have hall := List.pairwise_iff_getElem.mp h.apart
  obtain hlt | hlt := Nat.lt_or_gt_of_ne hne
  · exact hall n m hn hm hlt
  · exact (hall m n hm hn hlt).symm

theorem Placed.injective (h : Placed nodes) (hn : Points nodes n a) (hm : Points nodes m a) :
    n = m := by
  obtain ⟨e, he, hstart⟩ := hn.extent
  obtain ⟨f, hf, hstart'⟩ := hm.extent
  by_contra hne
  have hapart := h.apart_of_ne he hf hne
  refine hapart.start_ne (h.not_empty e (List.mem_of_getElem? he))
    (h.not_empty f (List.mem_of_getElem? hf)) ?_
  rw [hstart, hstart']

theorem Placed.address (h : Placed nodes) (hn : Points nodes n a) : 0 < a ∧ a < 2 ^ 64 := by
  obtain ⟨e, he, rfl⟩ := hn.extent
  obtain ⟨hpos, hend⟩ := h.place e (List.mem_of_getElem? he)
  have hsize := h.not_empty e (List.mem_of_getElem? he)
  omega

/-- Pointers are equal where the nodes are. -/
theorem Placed.rel_eq_iff (h : Placed nodes) {x y : Option NodePtr} {x' y' : Option Nat}
    (hx : Option.Rel (Points nodes) x x') (hy : Option.Rel (Points nodes) y y') :
    x' = y' ↔ x = y := by
  cases hx with
  | none =>
    cases hy with
    | none => exact ⟨fun _ => rfl, fun _ => rfl⟩
    | some hm => exact ⟨fun heq => (by cases heq), fun heq => by cases heq⟩
  | some hn =>
    cases hy with
    | none => exact ⟨fun heq => (by cases heq), fun heq => by cases heq⟩
    | some hm =>
      rw [Option.some.injEq, Option.some.injEq]
      constructor
      · rintro rfl
        exact h.injective hn hm
      · rintro rfl
        exact hn.functional hm

end points

/-- The header and the tower of a node are written, its key and value are not. -/
structure Initialised (mem : Memory) (node height : Nat) (call : InsertCall) : Prop where
  header : Node.HeaderIs mem node (BitVec.ofNat 16 height) (BitVec.ofNat 16 call.key.length)
    (BitVec.ofNat 32 call.value.length)
  tower : ∀ level, level < height → Node.load_next mem node level = none

theorem Initialised.init_node (mem : Memory) (node : Nat) {height : Nat} (call : InsertCall)
    (hheight : height ≤ MAX_HEAD_HEIGHT) :
    Initialised (Node.init_node mem node (BitVec.ofNat 16 height) (BitVec.ofNat 16 call.key.length)
      (BitVec.ofNat 32 call.value.length)) node height call where
  header := Node.init_node_header ..
  tower := by
    intro level hlevel
    apply load_next_init_node
    unfold MAX_HEAD_HEIGHT at hheight
    rw [BitVec.toNat_ofNat, Nat.mod_eq_of_lt (by omega)]
    exact hlevel

/-- The first bytes of a node are those of its header and tower. -/
theorem Initialised.same {mem mem' : Memory} {node height : Nat} {call : InsertCall}
    (h : Initialised mem node height call)
    (hsame : mem.SameOn mem' ⟨node, 8 + height * 8⟩) : Initialised mem' node height call where
  header := by
    apply h.header.congr
    intro a hle hlt
    have hlt' : a < node + 8 := hlt
    exact hsame a hle (Nat.lt_of_lt_of_le hlt' (Nat.add_le_add_left (Nat.le_add_right ..) node))
  tower := by
    intro level hlevel
    rw [← h.tower level hlevel]
    refine load_next_same (e := ⟨node, 8 + height * 8⟩) (hsame.mono ?_ ?_)
    · show node ≤ node + 8 + level * 8
      omega
    · show node + 8 + level * 8 + 8 ≤ node + (8 + height * 8)
      omega

/-- Key and value are copied into an initialised node. -/
theorem Initialised.filled {mem : Memory} {node height : Nat} {call : InsertCall}
    (h : Initialised mem node height call) (hfits : call.Fits)
    (hheight : height ≤ MAX_HEAD_HEIGHT) :
    NodeAt (Node.copy_entry mem node call.key call.value)
      (Node.extent node height call.key.length call.value.length)
      (Node.write height call.key call.value) ∧
    mem.ChangesOnly (Node.copy_entry mem node call.key call.value)
      ⟨node + (8 + height * 8), call.key.length + call.value.length⟩ := by
  obtain ⟨l₁, l₂, l₃, o₁, o₂, o₃, -, hregions⟩ := Node.build_layout_ok
    (BitVec.ofNat 16 height) (BitVec.ofNat 16 call.key.length) (BitVec.ofNat 32 call.value.length)
  have hkey : (BitVec.ofNat 16 call.key.length).toNat = call.key.length := by
    rw [BitVec.toNat_ofNat, Nat.mod_eq_of_lt hfits.key]
  have hvalue : (BitVec.ofNat 32 call.value.length).toNat = call.value.length := by
    rw [BitVec.toNat_ofNat, Nat.mod_eq_of_lt hfits.value]
  have htower : (BitVec.ofNat 16 height).toNat = height := by
    unfold MAX_HEAD_HEIGHT at hheight
    rw [BitVec.toNat_ofNat, Nat.mod_eq_of_lt (by omega)]
  obtain ⟨hheader, hread_key, hread_value, hsame⟩ :=
    Node.copy_entry_ok h.header hregions hkey.symm hvalue.symm
  have hwrite : Node.write height call.key call.value =
      { height := height, key := call.key, value := call.value } := by
    rw [Node.write, Nat.mod_eq_of_lt hfits.key, Nat.mod_eq_of_lt hfits.value, List.take_length,
      List.take_length]
  rw [hwrite]
  refine ⟨⟨rfl, hheader, hread_key, hread_value, hheight, hfits.key, hfits.value⟩, ?_⟩
  intro a ha
  obtain ⟨hstart, hend, hkey_end, hvalue_end⟩ := hregions
  have hstart' : 8 = o₁ := hstart
  have hend' : o₁ + (BitVec.ofNat 16 height).toNat * 8 = o₂ := hend
  rw [htower] at hend'
  apply hsame
  have ha' : a < node + (8 + height * 8) ∨
      node + (8 + height * 8) + (call.key.length + call.value.length) ≤ a := ha
  omega

theorem option_rel_mono {α β : Type*} {R Q : α → β → Prop} (himp : ∀ a b, R a b → Q a b)
    {x : Option α} {y : Option β} (h : Option.Rel R x y) : Option.Rel Q x y := by
  cases h with
  | none => exact .none
  | some h => exact .some (himp _ _ h)

theorem option_rel_cases {α β : Type*} {R : α → β → Prop} {x : Option α} {y : Option β}
    (h : Option.Rel R x y) : x = none ∧ y = none ∨ ∃ a b, x = some a ∧ y = some b ∧ R a b := by
  cases h with
  | none => exact .inl ⟨rfl, rfl⟩
  | some h => exact .inr ⟨_, _, rfl, rfl, h⟩

variable {Tid : Type} {cmp : Comparator}

/-- The memory of a list, with its nodes in the order of their allocation. -/
structure Represents (l : ArenaList Tid) (s : SkipList) : Prop where
  length : l.nodes.length = s.allocated
  sentinel : Points l.nodes sentinel l.sentinel
  seed : l.seed = s.seed
  entries : l.entries = s.entries
  max_level : l.max_level = s.max_level
  node : ∀ n e, l.nodes[n]? = some e → NodeAt l.memory e (s.nodes n)
  next : ∀ n e level, l.nodes[n]? = some e → level < (s.nodes n).height →
    Option.Rel (Points l.nodes) (s.next n level) (Node.load_next l.memory e.start level)

namespace Represents

variable {l : ArenaList Tid} {s : SkipList} {mem : Memory}

/-- Memory that no node has may change. -/
theorem frame (h : Represents l s) (hsame : ∀ e ∈ l.nodes, l.memory.SameOn mem e) :
    Represents { l with memory := mem } s where
  length := h.length
  sentinel := h.sentinel
  seed := h.seed
  entries := h.entries
  max_level := h.max_level
  node := fun n e he => (h.node n e he).same (hsame e (List.mem_of_getElem? he))
  next := by
    intro n e level he hlevel
    obtain ⟨hle, hword, hend⟩ := (h.node n e he).word_within hlevel
    have hsame' : l.memory.SameOn mem (Node.word e.start level) :=
      (hsame e (List.mem_of_getElem? he)).mono (Nat.le_trans (Nat.le_add_right ..) hle)
        (Nat.le_trans hword hend)
    show Option.Rel (Points l.nodes) (s.next n level) (Node.load_next mem e.start level)
    rw [load_next_same hsame']
    exact h.next n e level he hlevel

/-- A pointer is stored in the tower of a node. -/
theorem set_next (h : Represents l s) (hplaced : Placed l.nodes) {n a level : Nat}
    (hn : Points l.nodes n a) (hlevel : level < (s.nodes n).height) {succ : Option NodePtr}
    {succ' : Option Nat} (hsucc : Option.Rel (Points l.nodes) succ succ') :
    Represents { l with memory := Node.store_next l.memory a level succ' }
      (s.set_next n level succ) := by
  obtain ⟨e, he, rfl⟩ := hn.extent
  obtain ⟨hle, hword, hend⟩ := (h.node n e he).word_within hlevel
  have hchanges := store_next_changes l.memory e.start level succ'
  have hother : ∀ m f, l.nodes[m]? = some f → m ≠ n →
      l.memory.SameOn (Node.store_next l.memory e.start level succ') f := by
    intro m f hf hne
    have hsize : (Node.word e.start level).size = 8 := rfl
    exact (hchanges.mono (Nat.le_trans (Nat.le_add_right ..) hle)
      (Nat.le_trans hword hend)).sameOn (hplaced.apart_of_ne he hf (Ne.symm hne))
  refine ⟨h.length, h.sentinel, h.seed, h.entries, h.max_level, ?_, ?_⟩
  · intro m f hf
    by_cases hne : m = n
    · subst hne
      obtain rfl : e = f := Option.some.inj (he.symm.trans hf)
      refine (h.node m e he).congr ?_ ?_
      · apply hchanges.sameOn
        right
        exact hle
      · apply hchanges.sameOn
        left
        exact hword
    · exact (h.node m f hf).same (hother m f hf hne)
  · intro m f level' hf hlevel'
    show Option.Rel (Points l.nodes) ((s.set_next n level succ).next m level')
      (Node.load_next (Node.store_next l.memory e.start level succ') f.start level')
    by_cases hne : m = n
    · subst hne
      obtain rfl : e = f := Option.some.inj (he.symm.trans hf)
      by_cases heq : level' = level
      · subst heq
        rw [congrFun (set_next_same s m level' succ) m, Function.update_self,
          load_next_store_next]
        · exact hsucc
        · intro x hx
          subst hx
          cases hsucc with
          | some hsucc => exact hplaced.address hsucc
      · rw [congrFun (set_next_other s m succ heq) m,
          load_next_same (hchanges.sameOn (word_apart e.start (Ne.symm heq)))]
        exact h.next m e level' he hlevel'
    · have hkept : (s.set_next n level succ).next m level' = s.next m level' := by
        by_cases heq : level' = level
        · subst heq
          rw [congrFun (set_next_same s n level' succ) m, Function.update_of_ne hne]
        · exact congrFun (set_next_other s n succ heq) m
      obtain ⟨hle', hword', hend'⟩ := (h.node m f hf).word_within hlevel'
      rw [hkept, load_next_same ((hother m f hf hne).mono
        (Nat.le_trans (Nat.le_add_right ..) hle') (Nat.le_trans hword' hend'))]
      exact h.next m f level' hf hlevel'

/-- A node that is filled is the list's next one. -/
theorem filled (h : Represents l s) {node height : Nat} {call : InsertCall}
    (hinit : Initialised l.memory node height call) (hfits : call.Fits)
    (hheight : height ≤ MAX_HEAD_HEIGHT)
    (hapart : ∀ e ∈ l.nodes,
      (Node.extent node height call.key.length call.value.length).Apart e) :
    Represents
      { l with
        memory := Node.copy_entry l.memory node call.key call.value
        nodes := l.nodes ++ [Node.extent node height call.key.length call.value.length] }
      { s with
        allocated := s.allocated + 1
        nodes := Function.update s.nodes s.allocated (Node.write height call.key call.value)
        next := Function.update s.next s.allocated fun _ => none } := by
  obtain ⟨hnode, hchanges⟩ := hinit.filled hfits hheight
  have hextent : (Node.extent node height call.key.length call.value.length).size =
      8 + height * 8 + call.key.length + call.value.length := rfl
  have hold : ∀ e ∈ l.nodes,
      l.memory.SameOn (Node.copy_entry l.memory node call.key call.value) e := by
    intro e he
    refine (hchanges.mono (f := Node.extent node height call.key.length call.value.length)
      (Nat.le_add_right ..) ?_).sameOn (hapart e he)
    show node + (8 + height * 8) + (call.key.length + call.value.length) ≤ node + _
    omega
  have hframed := h.frame hold
  have hcases : ∀ n e, (l.nodes ++ [Node.extent node height call.key.length
      call.value.length])[n]? = some e → l.nodes[n]? = some e ∧ n ≠ s.allocated ∨
      n = s.allocated ∧ e = Node.extent node height call.key.length call.value.length := by
    intro n e he
    rw [List.getElem?_append] at he
    split at he
    · rename_i hlt
      exact .inl ⟨he, Nat.ne_of_lt (h.length ▸ hlt)⟩
    · rename_i hge
      rw [List.getElem?_singleton] at he
      split at he
      · rename_i hzero
        rw [← h.length]
        exact .inr ⟨by omega, (Option.some.inj he).symm⟩
      · cases he
  refine ⟨?_, h.sentinel.append, h.seed, h.entries, h.max_level, ?_, ?_⟩
  · show (l.nodes ++ [_]).length = s.allocated + 1
    rw [List.length_append, h.length]
    rfl
  · intro n e he
    obtain ⟨he, hne⟩ | ⟨rfl, rfl⟩ := hcases n e he
    · simp only [Function.update_of_ne hne]
      exact hframed.node n e he
    · simp only [Function.update_self]
      exact hnode
  · intro n e level he hlevel
    obtain ⟨he, hne⟩ | ⟨rfl, rfl⟩ := hcases n e he
    · simp only [Function.update_of_ne hne] at hlevel ⊢
      exact option_rel_mono (fun _ _ hpoints => hpoints.append) (hframed.next n e level he hlevel)
    · simp only [Function.update_self] at hlevel ⊢
      have htower : l.memory.SameOn (Node.copy_entry l.memory node call.key call.value)
          ⟨node, 8 + height * 8⟩ := hchanges.sameOn (.inr (Nat.le_refl _))
      show Option.Rel _ none (Node.load_next _ node level)
      rw [(hinit.same htower).tower level hlevel]
      exact .none

end Represents

end ordinum.mem_skip_list
