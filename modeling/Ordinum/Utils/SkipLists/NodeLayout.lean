import Ordinum.Arena.Layout
import Ordinum.Utils.SkipLists.MemSkipList
import Ordinum.Wire.Memory
import Ordinum.Wire.Reader

open wire
open ordinum.arena ordinum.utils

namespace ordinum.mem_skip_list

inductive SkipListError where
  | LayoutError (err : LayoutError)
  | Arena (err : ArenaError)
  deriving DecidableEq, Repr

def layout_u8 : Layout := ⟨1, 1, one_power_of_two, by decide⟩

def layout_u16 : Layout := ⟨2, 2, ⟨1, rfl⟩, by decide⟩

def layout_u32 : Layout := ⟨4, 4, four_power_of_two, four_bytes_fit⟩

/-- `AtomicPtr<Node>`. -/
def layout_ptr : Layout := ⟨8, 8, ⟨3, rfl⟩, by decide⟩

/-- `[AtomicPtr<Node>; 0]`. -/
def layout_no_ptr : Layout := ⟨0, 8, ⟨3, rfl⟩, by decide⟩

namespace Node

/-- `Layout::new::<Node>()`. -/
def layout : Layout := ⟨8, 8, ⟨3, rfl⟩, by decide⟩

def offset_of_height : Nat := 0

def offset_of_key_len : Nat := 2

def offset_of_value_len : Nat := 4

def offset_of_tower : Nat := 8

/-- The struct is laid out as `#[repr(C)]` says. -/
theorem layout_repr_c : Layout.repr_c [layout_u16, layout_u16, layout_u32, layout_no_ptr] =
    .ok (layout, [offset_of_height, offset_of_key_len, offset_of_value_len, offset_of_tower]) :=
  rfl

def build_layout (height key_len value_len : Nat) : Except SkipListError Layout := do
  let tower ← (Layout.array layout_ptr height).mapError .LayoutError
  let (layout, _) ← (Node.layout.extend tower).mapError .LayoutError
  let key ← (Layout.array layout_u8 key_len).mapError .LayoutError
  let (layout, _) ← (layout.extend key).mapError .LayoutError
  let value ← (Layout.array layout_u8 value_len).mapError .LayoutError
  let (layout, _) ← (layout.extend value).mapError .LayoutError
  return layout

def height_at (mem : Memory) (node : Nat) : BitVec 16 :=
  from_le_bytes 16 (mem.read (node + offset_of_height) 2)

def key_len_at (mem : Memory) (node : Nat) : BitVec 16 :=
  from_le_bytes 16 (mem.read (node + offset_of_key_len) 2)

def value_len_at (mem : Memory) (node : Nat) : BitVec 32 :=
  from_le_bytes 32 (mem.read (node + offset_of_value_len) 4)

def tower_ptr (node : Nat) : Nat := node + offset_of_tower

def node_at_tower_level (node index : Nat) : Nat := tower_ptr node + index * layout_ptr.size

def key_ptr (mem : Memory) (node : Nat) : Nat :=
  tower_ptr node + (height_at mem node).toNat * layout_ptr.size

def value_ptr (mem : Memory) (node : Nat) : Nat :=
  key_ptr mem node + (key_len_at mem node).toNat

def tower_height (mem : Memory) (node : Nat) : Nat :=
  (key_ptr mem node - tower_ptr node) / layout_ptr.size

def get_key_bytes (mem : Memory) (node : Nat) : List Byte :=
  mem.read (key_ptr mem node) (key_len_at mem node).toNat

def get_value_bytes (mem : Memory) (node : Nat) : List Byte :=
  mem.read (value_ptr mem node) (value_len_at mem node).toNat

/-- The header, then a null pointer on every level. -/
def init_node (mem : Memory) (node : Nat) (height key_len : BitVec 16) (value_len : BitVec 32) :
    Memory :=
  let mem := mem.write node
    (to_le_bytes 2 height ++ to_le_bytes 2 key_len ++ to_le_bytes 4 value_len)
  mem.fill (tower_ptr node) layout_ptr.size (List.replicate 8 0) height.toNat

/-- `alloc_raw` is where the arena places a layout; `none` is a panic. -/
def alloc (debug_assertions : Bool) (alloc_raw : Layout → Nat) (mem : Memory)
    (height key_len : BitVec 16) (value_len : BitVec 32) : Option (Memory × Nat) :=
  if debug_assertions = true ∧ MAX_HEAD_HEIGHT < height.toNat then none
  else match build_layout height.toNat key_len.toNat value_len.toNat with
    | .ok layout =>
      let ptr := alloc_raw layout
      some (init_node mem ptr height key_len value_len, ptr)
    | .error _ => none

/-- The key and the value that an insertion copies into its node. -/
def copy_entry (mem : Memory) (node : Nat) (key value : List Byte) : Memory :=
  let mem := mem.write (key_ptr mem node) key
  mem.write (value_ptr mem node) value

section regions

variable {mem mem' : Memory} {node : Nat} {height key_len : BitVec 16} {value_len : BitVec 32}
  {l₁ l₂ l₃ : Layout} {o₁ o₂ o₃ : Nat}

/-- The layouts and the offsets that `build_layout` goes through. -/
structure Built (height key_len value_len : Nat) (l₁ l₂ l₃ : Layout) (o₁ o₂ o₃ : Nat) : Prop where
  tower : ∃ tower, Layout.array layout_ptr height = .ok tower ∧
    Node.layout.extend tower = .ok (l₁, o₁)
  key : ∃ key, Layout.array layout_u8 key_len = .ok key ∧ l₁.extend key = .ok (l₂, o₂)
  value : ∃ value, Layout.array layout_u8 value_len = .ok value ∧ l₂.extend value = .ok (l₃, o₃)
  built : build_layout height key_len value_len = .ok l₃

/-- The regions of a node follow one another without gaps, from the header to the end of
its layout. -/
structure Consecutive (height key_len value_len : Nat) (layout : Layout) (o₁ o₂ o₃ : Nat) :
    Prop where
  header : Node.layout.size = o₁
  tower : o₁ + height * layout_ptr.size = o₂
  key : o₂ + key_len = o₃
  value : o₃ + value_len = layout.size

/-- Nothing is padded, and no size overflows. -/
theorem build_layout_ok (height key_len : BitVec 16) (value_len : BitVec 32) :
    ∃ l₁ l₂ l₃ o₁ o₂ o₃, Built height.toNat key_len.toNat value_len.toNat l₁ l₂ l₃ o₁ o₂ o₃ ∧
      Consecutive height.toNat key_len.toNat value_len.toNat l₃ o₁ o₂ o₃ := by
  have hheight := height.isLt
  have hkey_len := key_len.isLt
  have hvalue_len := value_len.isLt
  obtain ⟨tower, htower, htower_size, htower_align⟩ :=
    Layout.array_ok layout_ptr height.toNat (by
      simp only [layout_ptr, isize_max]
      omega)
  obtain ⟨key, hkey, hkey_size, hkey_align⟩ :=
    Layout.array_ok layout_u8 key_len.toNat (by
      simp only [layout_u8, isize_max]
      omega)
  obtain ⟨value, hvalue, hvalue_size, hvalue_align⟩ :=
    Layout.array_ok layout_u8 value_len.toNat (by
      simp only [layout_u8, isize_max]
      omega)
  simp only [layout_ptr] at htower_size htower_align
  simp only [layout_u8, Nat.one_mul] at hkey_size hkey_align hvalue_size hvalue_align
  obtain ⟨l₁, hl₁, hsize₁, halign₁⟩ := Layout.extend_ok Node.layout tower
    (by
      rw [htower_align]
      exact Nat.dvd_refl 8)
    (by
      simp only [htower_size, htower_align, Node.layout, isize_max]
      omega)
  simp only [htower_align, htower_size, Node.layout, Nat.max_self] at hsize₁ halign₁
  obtain ⟨l₂, hl₂, hsize₂, halign₂⟩ := Layout.extend_ok l₁ key
    (by
      rw [hkey_align]
      exact Nat.one_dvd l₁.size)
    (by
      simp only [hsize₁, halign₁, hkey_size, hkey_align, isize_max]
      omega)
  simp only [hsize₁, halign₁, hkey_size, hkey_align] at hsize₂ halign₂
  obtain ⟨l₃, hl₃, hsize₃, -⟩ := Layout.extend_ok l₂ value
    (by
      rw [hvalue_align]
      exact Nat.one_dvd l₂.size)
    (by
      simp only [hsize₂, halign₂, hvalue_size, hvalue_align, isize_max]
      omega)
  refine ⟨l₁, l₂, l₃, Node.layout.size, l₁.size, l₂.size,
    ⟨⟨tower, htower, hl₁⟩, ⟨key, hkey, hl₂⟩, ⟨value, hvalue, hl₃⟩, ?_⟩, ?_⟩
  · simp only [build_layout, Except.mapError, bind, Except.bind, htower, hl₁, hkey, hl₂, hvalue,
      hl₃]
    rfl
  · refine ⟨rfl, ?_, ?_, ?_⟩
    · rw [hsize₁, Nat.mul_comm]
      rfl
    · rw [hsize₂, hsize₁]
    · rw [hsize₃, hvalue_size]

variable (mem node height key_len value_len) in
/-- What the header of a node says. -/
structure HeaderIs : Prop where
  height : height_at mem node = height
  key_len : key_len_at mem node = key_len
  value_len : value_len_at mem node = value_len

/-- The header depends on its own bytes. -/
theorem HeaderIs.congr (h : HeaderIs mem node height key_len value_len)
    (hsame : ∀ a, node ≤ a → a < node + Node.layout.size → mem' a = mem a) :
    HeaderIs mem' node height key_len value_len := by
  have hread : ∀ offset n, offset + n ≤ Node.layout.size →
      mem'.read (node + offset) n = mem.read (node + offset) n := by
    intro offset n hle
    exact Memory.read_congr fun a _ _ => hsame a (by omega) (by omega)
  refine ⟨?_, ?_, ?_⟩
  · rw [height_at, hread _ _ (by decide)]
    exact h.height
  · rw [key_len_at, hread _ _ (by decide)]
    exact h.key_len
  · rw [value_len_at, hread _ _ (by decide)]
    exact h.value_len

/-- What `init_node` writes is read back, and stays in the header and the tower. -/
theorem init_node_header (mem : Memory) (node : Nat) (height key_len : BitVec 16)
    (value_len : BitVec 32) :
    HeaderIs (init_node mem node height key_len value_len) node height key_len value_len := by
  have hword : (List.replicate 8 (0 : BitVec 8)).length = layout_ptr.size := rfl
  have hheader : HeaderIs (mem.write node
      (to_le_bytes 2 height ++ to_le_bytes 2 key_len ++ to_le_bytes 4 value_len)) node height
      key_len value_len := by
    have hheight := Memory.read_write_part mem node [] (to_le_bytes 2 height)
      (to_le_bytes 2 key_len ++ to_le_bytes 4 value_len)
    have hkey_len := Memory.read_write_part mem node (to_le_bytes 2 height)
      (to_le_bytes 2 key_len) (to_le_bytes 4 value_len)
    have hvalue_len := Memory.read_write_part mem node
      (to_le_bytes 2 height ++ to_le_bytes 2 key_len) (to_le_bytes 4 value_len) []
    rw [List.nil_append, ← List.append_assoc, length_to_le_bytes] at hheight
    rw [length_to_le_bytes, length_to_le_bytes] at hkey_len
    rw [List.append_nil, List.length_append, length_to_le_bytes, length_to_le_bytes,
      length_to_le_bytes] at hvalue_len
    refine ⟨?_, ?_, ?_⟩
    · exact (congrArg _ hheight).trans (from_le_bytes_to_le_bytes 2 height.isLt)
    · exact (congrArg _ hkey_len).trans (from_le_bytes_to_le_bytes 2 key_len.isLt)
    · exact (congrArg _ hvalue_len).trans (from_le_bytes_to_le_bytes 4 value_len.isLt)
  apply hheader.congr
  intro a _ hlt
  exact Memory.fill_of_outside hword (.inl hlt)

theorem init_node_of_outside {a : Nat}
    (h : a < node ∨ node + Node.layout.size + height.toNat * layout_ptr.size ≤ a) :
    init_node mem node height key_len value_len a = mem a := by
  have hword : (List.replicate 8 (0 : BitVec 8)).length = layout_ptr.size := rfl
  have hsize : Node.layout.size = offset_of_tower := rfl
  rw [init_node, Memory.fill_of_outside hword, Memory.write_of_outside]
  · simp only [List.length_append, length_to_le_bytes, Node.layout] at h ⊢
    omega
  · rw [tower_ptr, ← hsize]
    omega

variable {layout : Layout} {key value : List Byte}

/-- The pointers that are computed from the header point to the regions of the layout. -/
structure PointsTo (mem : Memory) (node height o₁ o₂ o₃ : Nat) : Prop where
  tower : tower_ptr node = node + o₁
  key : key_ptr mem node = node + o₂
  value : value_ptr mem node = node + o₃
  tower_height : tower_height mem node = height

theorem HeaderIs.pointsTo (h : HeaderIs mem node height key_len value_len)
    (hregions : Consecutive height.toNat key_len.toNat value_len.toNat layout o₁ o₂ o₃) :
    PointsTo mem node height.toNat o₁ o₂ o₃ := by
  obtain ⟨hheader, htower, hkey, -⟩ := hregions
  have htower_ptr : tower_ptr node = node + o₁ := by
    rw [← hheader]
    rfl
  have hkey_ptr : key_ptr mem node = node + o₂ := by
    rw [key_ptr, h.height, htower_ptr, ← htower, Nat.add_assoc]
  have hvalue_ptr : value_ptr mem node = node + o₃ := by
    rw [value_ptr, h.key_len, hkey_ptr, ← hkey, Nat.add_assoc]
  refine ⟨htower_ptr, hkey_ptr, hvalue_ptr, ?_⟩
  rw [Node.tower_height, key_ptr, h.height, Nat.add_sub_cancel_left]
  exact Nat.mul_div_cancel _ (by decide)

/-- Each level has its place in the tower. -/
theorem PointsTo.level (h : PointsTo mem node height.toNat o₁ o₂ o₃)
    (htower : o₁ + height.toNat * layout_ptr.size = o₂) {index : Nat}
    (hindex : index < height.toNat) :
    node + o₁ ≤ node_at_tower_level node index ∧
      node_at_tower_level node index + layout_ptr.size ≤ node + o₂ := by
  have hmul : (index + 1) * layout_ptr.size ≤ height.toNat * layout_ptr.size :=
    Nat.mul_le_mul_right _ hindex
  rw [Nat.succ_mul] at hmul
  rw [node_at_tower_level, h.tower]
  omega

/-- The key and the value are copied behind the tower, and are read back. -/
theorem copy_entry_ok (h : HeaderIs mem node height key_len value_len)
    (hregions : Consecutive height.toNat key_len.toNat value_len.toNat layout o₁ o₂ o₃)
    (hkey : key.length = key_len.toNat) (hvalue : value.length = value_len.toNat) :
    HeaderIs (copy_entry mem node key value) node height key_len value_len ∧
      get_key_bytes (copy_entry mem node key value) node = key ∧
      get_value_bytes (copy_entry mem node key value) node = value ∧
      ∀ a, a < node + o₂ ∨ node + layout.size ≤ a → copy_entry mem node key value a = mem a := by
  obtain ⟨hheader, htower, hkey_end, hvalue_end⟩ := hregions
  have hkey_ptr := (h.pointsTo ⟨hheader, htower, hkey_end, hvalue_end⟩).key
  have hmiddle : HeaderIs (mem.write (key_ptr mem node) key) node height key_len value_len := by
    refine h.congr fun a _ hlt => Memory.write_of_outside (.inl ?_)
    omega
  have hvalue_ptr := (hmiddle.pointsTo ⟨hheader, htower, hkey_end, hvalue_end⟩).value
  have hcopied : HeaderIs (copy_entry mem node key value) node height key_len value_len := by
    refine hmiddle.congr fun a _ hlt => Memory.write_of_outside (.inl ?_)
    omega
  have hpoints := hcopied.pointsTo ⟨hheader, htower, hkey_end, hvalue_end⟩
  refine ⟨hcopied, ?_, ?_, fun a ha => ?_⟩
  · rw [get_key_bytes, hcopied.key_len, hpoints.key, copy_entry, hvalue_ptr,
      Memory.read_write_apart (.inl (by omega)), hkey_ptr, ← hkey]
    exact Memory.read_write mem (node + o₂) key
  · rw [get_value_bytes, hcopied.value_len, hpoints.value, copy_entry, hvalue_ptr, ← hvalue]
    exact Memory.read_write _ (node + o₃) value
  · rw [copy_entry, hvalue_ptr, Memory.write_of_outside, hkey_ptr, Memory.write_of_outside]
    · omega
    · omega

/-- What is read back from a node's bytes is the node of the list. -/
theorem read_back_eq_write
    (h : HeaderIs mem node height (BitVec.ofNat 16 key.length) (BitVec.ofNat 32 value.length))
    (hregions : Consecutive height.toNat (BitVec.ofNat 16 key.length).toNat
      (BitVec.ofNat 32 value.length).toNat layout o₁ o₂ o₃)
    (hkey : key.length < 2 ^ 16) (hvalue : value.length < 2 ^ 32) :
    Node.write height.toNat key value =
      { height := tower_height (copy_entry mem node key value) node
        key := get_key_bytes (copy_entry mem node key value) node
        value := get_value_bytes (copy_entry mem node key value) node } := by
  have hkey_len : key.length = (BitVec.ofNat 16 key.length).toNat := by
    rw [BitVec.toNat_ofNat, Nat.mod_eq_of_lt hkey]
  have hvalue_len : value.length = (BitVec.ofNat 32 value.length).toNat := by
    rw [BitVec.toNat_ofNat, Nat.mod_eq_of_lt hvalue]
  obtain ⟨hcopied, hread_key, hread_value, -⟩ := copy_entry_ok h hregions hkey_len hvalue_len
  rw [Node.write, hread_key, hread_value, (hcopied.pointsTo hregions).tower_height,
    Nat.mod_eq_of_lt hkey, Nat.mod_eq_of_lt hvalue, List.take_length, List.take_length]

/-- The layout that is allocated and the pointers that are computed from the header agree:
header, tower, key and value follow one another without gaps up to the end of the layout,
and all writes to a node stay within it. -/
theorem regions_agree (debug_assertions : Bool) (alloc_raw : Layout → Nat) (mem : Memory)
    (height key_len : BitVec 16) (value_len : BitVec 32)
    (hheight : height.toNat ≤ MAX_HEAD_HEIGHT) :
    ∃ l₁ l₂ l₃ o₁ o₂ o₃, Built height.toNat key_len.toNat value_len.toNat l₁ l₂ l₃ o₁ o₂ o₃ ∧
      Consecutive height.toNat key_len.toNat value_len.toNat l₃ o₁ o₂ o₃ ∧
      ∃ mem' node, alloc debug_assertions alloc_raw mem height key_len value_len =
          some (mem', node) ∧ node = alloc_raw l₃ ∧
        PointsTo mem' node height.toNat o₁ o₂ o₃ ∧
        (∀ index, index < height.toNat → node + o₁ ≤ node_at_tower_level node index ∧
          node_at_tower_level node index + layout_ptr.size ≤ node + o₂) ∧
        ∀ key value : List Byte, key.length = key_len.toNat → value.length = value_len.toNat →
          PointsTo (copy_entry mem' node key value) node height.toNat o₁ o₂ o₃ ∧
          get_key_bytes (copy_entry mem' node key value) node = key ∧
          get_value_bytes (copy_entry mem' node key value) node = value ∧
          ∀ a, a < node ∨ node + l₃.size ≤ a → copy_entry mem' node key value a = mem a := by
  obtain ⟨l₁, l₂, l₃, o₁, o₂, o₃, hbuilt, hregions⟩ := build_layout_ok height key_len value_len
  refine ⟨l₁, l₂, l₃, o₁, o₂, o₃, hbuilt, hregions,
    init_node mem (alloc_raw l₃) height key_len value_len, alloc_raw l₃, ?_, rfl, ?_⟩
  · rw [alloc, if_neg fun hassert => Nat.not_lt_of_le hheight hassert.2, hbuilt.built]
  have hheader := init_node_header mem (alloc_raw l₃) height key_len value_len
  have hpoints := hheader.pointsTo hregions
  refine ⟨hpoints, fun index => hpoints.level hregions.tower, fun key value hkey hvalue => ?_⟩
  obtain ⟨hcopied, hread_key, hread_value, hsame⟩ := copy_entry_ok hheader hregions hkey hvalue
  refine ⟨hcopied.pointsTo hregions, hread_key, hread_value, fun a ha => ?_⟩
  obtain ⟨hend, htower, hkey_end, hvalue_end⟩ := hregions
  rw [hsame a (by omega)]
  exact init_node_of_outside (by omega)

/-- A node of two levels. -/
theorem regions_agree_two_levels : ∃ mem' layout, build_layout 2 1 3 = .ok layout ∧
    layout.size = 28 ∧
    alloc true (fun _ => 64) (fun _ => 7) 2 1 3 = some (mem', 64) ∧
    tower_height mem' 64 = 2 ∧ key_ptr mem' 64 = 88 ∧ value_ptr mem' 64 = 89 := by
  obtain ⟨l₁, l₂, l₃, o₁, o₂, o₃, hbuilt, hregions, mem', node, halloc, rfl, hpoints, -⟩ :=
    regions_agree true (fun _ => 64) (fun _ => 7) 2 1 3 (by decide)
  obtain ⟨hheader, htower, hkey, hvalue⟩ := hregions
  obtain rfl : 8 = o₁ := hheader
  obtain rfl : 24 = o₂ := htower
  obtain rfl : 25 = o₃ := hkey
  exact ⟨mem', l₃, hbuilt.built, hvalue.symm, halloc, hpoints.tower_height, hpoints.key,
    hpoints.value⟩

end regions

end Node

end ordinum.mem_skip_list
