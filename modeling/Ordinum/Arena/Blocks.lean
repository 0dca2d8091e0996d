import Ordinum.Arena.Regions
import Ordinum.Wire.Extent

open interleaving wire

namespace ordinum.arena

variable {Tid : Type} {policy : ArenaPolicy} {t : Tid} {s s' : ArenaShared Tid} {pc pc' : ArenaPc}

/-- The allocator places a block in memory that no chunk has, and not at null. -/
structure FreshBlock (policy : ArenaPolicy) (s : ArenaShared Tid) (base : Nat) : Prop where
  not_null : 0 < base
  fits : base + policy.block_size ≤ 2 ^ 64
  apart : ∀ chunk ∈ s.chunks, base + policy.block_size ≤ chunk.base ∨
    chunk.base + policy.block_size ≤ base

instance (policy : ArenaPolicy) (s : ArenaShared Tid) (base : Nat) :
    Decidable (FreshBlock policy s base) :=
  decidable_of_iff (0 < base ∧ base + policy.block_size ≤ 2 ^ 64 ∧
      ∀ chunk ∈ s.chunks, base + policy.block_size ≤ chunk.base ∨
        chunk.base + policy.block_size ≤ base)
    ⟨fun h => ⟨h.1, h.2.1, h.2.2⟩, fun h => ⟨h.not_null, h.fits, h.apart⟩⟩

/-- Where an allocation pushes a new chunk. -/
def ArenaPc.pushes : ArenaPc → Bool
  | .alloc _ _ .push => true
  | _ => false

def ArenaAct.base : ArenaAct → Nat
  | .alloc _ _ => 0
  | .step choice => choice.base

/-- What the arena relies on the allocator for. -/
def fresh_blocks (policy : ArenaPolicy) :
    System.StepCondition Tid ArenaAct (ArenaShared Tid) ArenaPc :=
  fun _ a s pc => pc.pushes = true → FreshBlock policy s a.base

/-- The chunks are somewhere in memory, each in bytes of its own. -/
structure BlocksApart (policy : ArenaPolicy) (s : ArenaShared Tid) : Prop where
  not_null : ∀ chunk ∈ s.chunks, 0 < chunk.base
  fits : ∀ chunk ∈ s.chunks, chunk.base + policy.block_size ≤ 2 ^ 64
  apart : (s.chunks.map Chunk.base).Pairwise fun a b =>
    a + policy.block_size ≤ b ∨ b + policy.block_size ≤ a

theorem BlocksApart.same (h : BlocksApart policy s)
    (hbases : s'.chunks.map Chunk.base = s.chunks.map Chunk.base) : BlocksApart policy s' := by
  have hmem : ∀ chunk ∈ s'.chunks, ∃ old ∈ s.chunks, old.base = chunk.base := by
    intro chunk hchunk
    have hbase := List.mem_map_of_mem (f := Chunk.base) hchunk
    rw [hbases] at hbase
    exact List.mem_map.mp hbase
  refine ⟨?_, ?_, hbases ▸ h.apart⟩
  · intro chunk hchunk
    obtain ⟨old, hold, hbase⟩ := hmem chunk hchunk
    rw [← hbase]
    exact h.not_null old hold
  · intro chunk hchunk
    obtain ⟨old, hold, hbase⟩ := hmem chunk hchunk
    rw [← hbase]
    exact h.fits old hold

theorem BlocksApart.push (h : BlocksApart policy s) {chunk : Chunk}
    (hfresh : FreshBlock policy s chunk.base) (hchunks : s'.chunks = s.chunks ++ [chunk]) :
    BlocksApart policy s' := by
  have hmem : ∀ c ∈ s'.chunks, c ∈ s.chunks ∨ c = chunk := by
    intro c hc
    rw [hchunks, List.mem_append, List.mem_singleton] at hc
    exact hc
  refine ⟨?_, ?_, ?_⟩
  · intro c hc
    obtain hold | rfl := hmem c hc
    · exact h.not_null c hold
    · exact hfresh.not_null
  · intro c hc
    obtain hold | rfl := hmem c hc
    · exact h.fits c hold
    · exact hfresh.fits
  · rw [hchunks, List.map_append, List.map_singleton]
    refine List.pairwise_append.mpr ⟨h.apart, List.pairwise_singleton .., ?_⟩
    intro a ha b hb
    obtain ⟨c, hc, rfl⟩ := List.mem_map.mp ha
    rw [List.mem_singleton.mp hb]
    exact (hfresh.apart c hc).symm

theorem ArenaShared.bases_set_bump (s : ArenaShared Tid) (i bump : Nat) :
    (s.set_bump i bump).chunks.map Chunk.base = s.chunks.map Chunk.base := by
  apply List.ext_getElem?
  intro j
  simp only [ArenaShared.set_bump, List.getElem?_map, List.getElem?_modify]
  cases s.chunks[j]? with
  | none => simp
  | some chunk => by_cases hij : i = j <;> simp [hij]

theorem ArenaMove.bases (hmove : ArenaMove policy t s pc s' pc') (hpc : pc.pushes = false) :
    s'.chunks.map Chunk.base = s.chunks.map Chunk.base := by
  cases hmove with
  | exchange => exact s.bases_set_bump ..
  | push => cases hpc
  | _ => rfl

theorem arena_step_blocks {a : ArenaAct} {r : ArenaShared Tid × ArenaPc}
    (hs : BlocksApart policy s) (hfresh : fresh_blocks policy t a s pc)
    (hr : arena_step policy t a s pc = some r) : BlocksApart policy r.1 := by
  cases hpc : pc.pushes with
  | false => exact hs.same ((arena_step_move hr).bases hpc)
  | true =>
    cases a with
    | alloc call layout =>
      cases pc with
      | idle => cases hpc
      | alloc => cases hr
    | step choice =>
      cases pc with
      | idle => cases hpc
      | alloc call layout pc =>
        cases pc with
        | push =>
          injection hr with hr
          subst hr
          exact hs.push (hfresh hpc) rfl
        | _ => cases hpc

def blocks_outline (Tid : Type) (policy : ArenaPolicy) :
    System.Outline Tid (ArenaShared Tid) ArenaPc where
  shared := BlocksApart policy
  thread := fun _ _ _ => True
  apart := fun _ _ => True

theorem BlocksApart.one_block {chunk : Chunk} (hnull : 0 < chunk.base)
    (hfits : chunk.base + policy.block_size ≤ 2 ^ 64) (hchunks : s.chunks = [chunk]) :
    BlocksApart policy s := by
  have hmem : ∀ c ∈ s.chunks, c = chunk := by
    intro c hc
    rw [hchunks] at hc
    exact List.mem_singleton.mp hc
  refine ⟨?_, ?_, ?_⟩
  · intro c hc
    rw [hmem c hc]
    exact hnull
  · intro c hc
    rw [hmem c hc]
    exact hfits
  · rw [hchunks]
    exact List.pairwise_singleton ..

/-- In what follows the first block is where `base` says. -/
theorem blocks_outline_valid {base : Nat} (hnull : 0 < base)
    (hfits : base + policy.block_size ≤ 2 ^ 64) :
    System.Outline.trivial.ValidOver (blocks_outline Tid policy) (arena_system Tid policy base)
      (fresh_blocks policy) where
  init_shared := .one_block hnull hfits rfl
  init_thread := fun _ => trivial
  init_apart := trivial
  step_own := fun _ _ _ _ _ _ _ hs _ hG hr => ⟨arena_step_blocks hs hG hr, trivial⟩
  step_other := fun _ _ _ _ _ _ _ _ _ _ _ _ => ⟨trivial, trivial, trivial⟩

section bytes

variable (hregions : RegionsIntact policy s) (hblocks : BlocksApart policy s)

/-- The bytes of a region. -/
def ArenaShared.bytes (s : ArenaShared Tid) (region : Region) : Extent :=
  ⟨(s.chunk region.chunk).base + region.offset, region.size⟩

include hregions

theorem ArenaShared.Reserves.within {region : Region} (h : s.Reserves region) :
    region.offset + region.size ≤ policy.block_size :=
  Nat.le_trans h.below (hregions.bump _ h.chunk)

include hblocks

/-- A region lies in memory, and not at null. -/
theorem ArenaShared.Reserves.place {region : Region} (h : s.Reserves region) :
    0 < (s.bytes region).start ∧ (s.bytes region).start + (s.bytes region).size ≤ 2 ^ 64 := by
  have hwithin := h.within hregions
  have hmem : s.chunk region.chunk ∈ s.chunks := by
    rw [ArenaShared.chunk, List.getD_eq_getElem _ _ h.chunk]
    exact List.getElem_mem h.chunk
  have hnull := hblocks.not_null _ hmem
  have hfits := hblocks.fits _ hmem
  simp only [ArenaShared.bytes]
  omega

/-- Regions that do not overlap in their chunks have no byte in common. -/
theorem Region.Apart.bytes {a b : Region} (hapart : a.Apart b) (ha : s.Reserves a)
    (hb : s.Reserves b) : (s.bytes a).Apart (s.bytes b) := by
  have hwithin_a := ha.within hregions
  have hwithin_b := hb.within hregions
  simp only [Extent.Apart, ArenaShared.bytes]
  by_cases hchunk : a.chunk = b.chunk
  · have hoffsets := hapart hchunk
    rw [hchunk]
    omega
  · have hlength : ∀ i, i < s.chunks.length → i < (s.chunks.map Chunk.base).length := by
      intro i hi
      rwa [List.length_map]
    have hbase : ∀ i, i < s.chunks.length →
        (s.chunks.map Chunk.base)[i]? = some (s.chunk i).base := by
      intro i hi
      rw [List.getElem?_map, List.getElem?_eq_getElem hi, Option.map_some, ArenaShared.chunk,
        List.getD_eq_getElem _ _ hi]
    have hall := List.pairwise_iff_getElem.mp hblocks.apart
    obtain hlt | hlt := Nat.lt_or_gt_of_ne hchunk
    · have hblock := hall _ _ (hlength _ ha.chunk) (hlength _ hb.chunk) hlt
      rw [(List.getElem_eq_iff _).mpr (hbase _ ha.chunk),
        (List.getElem_eq_iff _).mpr (hbase _ hb.chunk)] at hblock
      omega
    · have hblock := hall _ _ (hlength _ hb.chunk) (hlength _ ha.chunk) hlt
      rw [(List.getElem_eq_iff _).mpr (hbase _ ha.chunk),
        (List.getElem_eq_iff _).mpr (hbase _ hb.chunk)] at hblock
      omega

end bytes

end ordinum.arena
