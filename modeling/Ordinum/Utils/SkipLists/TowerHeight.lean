import Ordinum.Utils.SkipLists.InsertAlone

open interleaving interleaving.System
open ordinum.key ordinum.utils

namespace ordinum.mem_skip_list

variable {cmp : Comparator} {call : InsertCall} {s s' : SkipList} {ctx : Option TraversalCtx}

section height

/-- The height that is drawn with a random state. -/
def drawn_height (seed : BitVec 64) : Nat :=
  min MAX_HEAD_HEIGHT (seed.ctz.toNat + 1)

/-- What the comment of the loop asks for: while no other node has reached the level two
below it, the height goes down by one. -/
def height_in_use (s : SkipList) (height : Nat) : Nat :=
  if 4 ≤ height ∧ s.next sentinel (height - 2) = none then height_in_use s (height - 1)
  else height

/-- The loop of the code stops at three, whatever the sentinel links to. -/
theorem lower_height_eq (height : Nat) : lower_height height = min height 3 := by
  induction height using lower_height.induct with
  | case1 height hlarge ih =>
    rw [lower_height, if_pos hlarge, ih]
    omega
  | case2 height hsmall =>
    rw [lower_height, if_neg hsmall]
    omega

/-- Where all links are in use, nothing is taken from the height. -/
theorem height_in_use_of_linked (hlinked : ∀ level, level < MAX_HEAD_HEIGHT →
    s.next sentinel level ≠ none) {height : Nat} (hheight : height ≤ MAX_HEAD_HEIGHT) :
    height_in_use s height = height := by
  rw [height_in_use, if_neg]
  rintro ⟨hlarge, hnone⟩
  exact hlinked (height - 2) (by omega) hnone

/-- The code and its comment agree exactly when no node has reached the levels that the
loop passes. -/
theorem lower_height_eq_in_use_iff (s : SkipList) (height : Nat) :
    lower_height height = height_in_use s height ↔
      ∀ h, 4 ≤ h → h ≤ height → s.next sentinel (h - 2) = none := by
  rw [lower_height_eq]
  induction height using height_in_use.induct s with
  | case1 height hunused ih =>
    have hmin : min height 3 = min (height - 1) 3 := by omega
    rw [height_in_use, if_pos hunused, hmin, ih]
    constructor
    · intro hbelow h hlarge hle
      obtain rfl | hlt := Nat.eq_or_lt_of_le hle
      · exact hunused.2
      · exact hbelow h hlarge (Nat.le_sub_one_of_lt hlt)
    · intro hnone h hlarge hle
      exact hnone h hlarge (hle.trans (Nat.sub_le height 1))
  | case2 height hused =>
    rw [height_in_use, if_neg hused]
    constructor
    · intro heq h hlarge hle
      omega
    · intro hnone
      by_contra hne
      exact hused ⟨by omega, hnone height (by omega) (Nat.le_refl height)⟩

end height

section selection

/-- The accesses of `generate_random_level`. -/
def InsertPc.in_random_level : InsertPc → Bool
  | .load_seed _ | .store_seed _ _ | .load_max_level _ _ | .cas_max_level _ _ _ => true
  | _ => false

variable (cmp call) in
/-- `generate_random_level` running alone, with any exchanges that fail for no reason: it
leaves `s'` and returns the height. -/
inductive GeneratesLevel : SkipList → InsertPc → SkipList → Nat → Prop where
  | returns (s : SkipList) (ctx : Option TraversalCtx) (height : Nat) :
    GeneratesLevel s (.alloc ctx height) s height
  | step {s pc t pc' s' height} (choice : Bool) (hpc : pc.in_random_level)
    (hstep : insert_step cmp call choice s pc = (t, .next pc'))
    (rest : GeneratesLevel t pc' s' height) : GeneratesLevel s pc s' height

/-- The height that is going to be returned. -/
def InsertPc.height (s : SkipList) : InsertPc → Nat
  | .load_seed _ => random_height (xorshift s.seed)
  | .store_seed _ seed => random_height (xorshift seed)
  | .load_max_level _ height | .cas_max_level _ height _ | .alloc _ height => height
  | _ => 0

/-- One access leaves the height that is returned, and raises `max_level` to it. -/
theorem random_level_step {pc pc' : InsertPc} {choice : Bool} (hpc : pc.in_random_level)
    (hstep : insert_step cmp call choice s pc = (s', .next pc')) :
    pc'.height s' = pc.height s ∧ InsertHeightOk s' pc' := by
  have hraise : ∀ (ctx : Option TraversalCtx) (height : Nat),
      (if s.max_level < height then Progress.next (InsertPc.cas_max_level ctx height s.max_level)
        else .next (.alloc ctx height)) = (.next pc' : Progress InsertPc Inserted) →
      pc'.height s = height ∧ InsertHeightOk s pc' := by
    intro ctx height hnext
    have hok := raise_max_level_ok (s := s) ctx height
    rw [hnext] at hok
    refine ⟨?_, hok⟩
    split at hnext <;> cases hnext <;> rfl
  cases pc with
  | load_seed | store_seed =>
    cases hstep
    exact ⟨rfl, trivial⟩
  | load_max_level ctx height =>
    obtain ⟨rfl, hnext⟩ := Prod.mk.inj hstep
    exact hraise ctx height hnext
  | cas_max_level ctx height max_height =>
    simp only [insert_step] at hstep
    split at hstep
    · cases hstep
      exact ⟨rfl, Nat.le_refl height⟩
    · obtain ⟨rfl, hnext⟩ := Prod.mk.inj hstep
      exact hraise ctx height hnext
  | _ => cases hpc

theorem GeneratesLevel.height_eq {pc : InsertPc} {height : Nat}
    (h : GeneratesLevel cmp call s pc s' height) (hpc : InsertHeightOk s pc) :
    height = pc.height s ∧ height ≤ s'.max_level := by
  induction h with
  | returns s ctx height => exact ⟨rfl, hpc⟩
  | step choice hlevel hstep rest ih =>
    obtain ⟨hheight, hok⟩ := random_level_step hlevel hstep
    rw [← hheight]
    exact ih hok

theorem raises_max_level (cmp : Comparator) (call : InsertCall) (ctx : Option TraversalCtx)
    (s : SkipList) (height : Nat) :
    ∃ s', GeneratesLevel cmp call s (.load_max_level ctx height) s' height := by
  by_cases hlt : s.max_level < height
  · have hload : insert_step cmp call false s (.load_max_level ctx height) =
        (s, .next (.cas_max_level ctx height s.max_level)) := by
      simp only [insert_step, if_pos hlt]
    have hcas : insert_step cmp call false s (.cas_max_level ctx height s.max_level) =
        ({ s with max_level := height }, .next (.alloc ctx height)) := by
      simp only [insert_step, and_self, if_true]
    exact ⟨_, .step false rfl hload (.step false rfl hcas (.returns _ ctx height))⟩
  · have hload : insert_step cmp call false s (.load_max_level ctx height) =
        (s, .next (.alloc ctx height)) := by
      simp only [insert_step, if_neg hlt]
    exact ⟨s, .step false rfl hload (.returns s ctx height)⟩

/-- It returns, if the exchange does not fail for no reason. -/
theorem generates_level (cmp : Comparator) (call : InsertCall) (ctx : Option TraversalCtx)
    (s : SkipList) : ∃ s' height, GeneratesLevel cmp call s (.load_seed ctx) s' height := by
  obtain ⟨s', hraised⟩ := raises_max_level cmp call ctx { s with seed := xorshift s.seed }
    (random_height (xorshift s.seed))
  exact ⟨s', _, .step false rfl rfl (.step false rfl rfl hraised)⟩

variable (cmp call) in
/-- `generate_random_level` returns, with the height that its comment asks for, and
`max_level` is at least that. -/
def LevelInUse (s : SkipList) (ctx : Option TraversalCtx) : Prop :=
  (∃ s' height, GeneratesLevel cmp call s (.load_seed ctx) s' height) ∧
    ∀ s' height, GeneratesLevel cmp call s (.load_seed ctx) s' height →
      height = height_in_use s (drawn_height (xorshift s.seed)) ∧ height ≤ s'.max_level

theorem level_in_use_iff (cmp : Comparator) (call : InsertCall) (s : SkipList)
    (ctx : Option TraversalCtx) : LevelInUse cmp call s ctx ↔
      ∀ h, 4 ≤ h → h ≤ drawn_height (xorshift s.seed) → s.next sentinel (h - 2) = none := by
  rw [← lower_height_eq_in_use_iff]
  constructor
  · rintro ⟨⟨s', height, hlevel⟩, hall⟩
    rw [← (hall s' height hlevel).1, (hlevel.height_eq trivial).1]
    rfl
  · intro heq
    refine ⟨generates_level cmp call ctx s, fun s' height hlevel => ?_⟩
    obtain ⟨hheight, hmax⟩ := hlevel.height_eq trivial
    exact ⟨hheight.trans heq, hmax⟩

/-- Twelve insertions, each to the left of those before it. -/
def twelve_inserts : List (Unit × InsertAct) :=
  [(12, 8), (11, 10), (10, 15), (9, 12), (8, 16), (7, 14), (6, 14), (5, 14), (4, 12), (3, 12),
    (2, 12), (1, 12)].flatMap fun (key, steps) =>
      ((), .start (.insert_with [BitVec.ofNat 8 key] [])) :: List.replicate steps ((), .step false)

/-- After twelve insertions, two of them of height three, the height five that is drawn is
lowered to three, though the sentinel has a link at level two. -/
theorem linked_level_is_not_used :
    ∃ c, (skip_list_system DefaultComparator Unit).ReachableUnder entries_fit c ∧
      (c.threads ()).running = none ∧
      ¬ LevelInUse DefaultComparator (.insert_with [0] []) c.shared none := by
  obtain ⟨c, hc, hseen⟩ := reachable_showing (skip_list_system DefaultComparator Unit) entries_fit
    twelve_inserts
    (fun c => ((c.threads ()).running.isNone && (c.shared.next sentinel 2).isSome,
      drawn_height (xorshift c.shared.seed)))
    (true, 5) (by decide +kernel)
  simp only [Prod.mk.injEq, Bool.and_eq_true, Option.isNone_iff_eq_none] at hseen
  obtain ⟨⟨hidle, hlinked⟩, hdrawn⟩ := hseen
  refine ⟨c, hc, hidle, fun hlevel => ?_⟩
  obtain ⟨s', height, hgenerates⟩ := hlevel.1
  have hcode := (hgenerates.height_eq trivial).1
  have hcomment := (hlevel.2 s' height hgenerates).1
  have hone : height_in_use c.shared 5 ≠ 3 := by
    intro hthree
    have hnone := (lower_height_eq_in_use_iff c.shared 5).mp
      ((lower_height_eq 5).trans hthree.symm) 4 (Nat.le_refl 4) (by decide)
    rw [hnone] at hlinked
    cases hlinked
  rw [hdrawn] at hcomment
  apply hone
  rw [← hcomment, hcode]
  change lower_height (drawn_height (xorshift c.shared.seed)) = 3
  rw [hdrawn, lower_height_eq]
  rfl

end selection

end ordinum.mem_skip_list
