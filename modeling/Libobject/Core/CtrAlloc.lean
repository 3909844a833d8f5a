import Libobject.Lib.Refine
import Mathlib.Data.BitVec
import Mathlib.Data.Int.Notation

/-!
# The container allocator

Memory comes from the system in regions: pools, of which slabs are carved from the front on, and
single slabs that are too large for a pool. A slab has a header in front of its data. Slabs of a
pool that are freed wait in the list of their size class; a size class is a power of two of the
smallest size. A pool, and a header, that is touched outside its region is undefined.
-/

namespace Libobject

/-- Usable bytes, at an offset in a region. -/
structure Block where
  region : ℕ
  offset : ℕ
  length : ℕ
  deriving DecidableEq

/-- Two blocks have no byte in common. -/
def Block.Apart (b d : Block) : Prop :=
  b.region ≠ d.region ∨ b.offset + b.length ≤ d.offset ∨ d.offset + d.length ≤ b.offset

def Block.Inside (b : Block) (regions : List (ℕ × ℕ)) : Prop :=
  ∃ r ∈ regions, r.1 = b.region ∧ b.offset + b.length ≤ r.2

/-- The header of a slab and where it is; `stat_flag` tells whether the slab is in use. -/
structure CtrSlab where
  region : ℕ
  offset : ℕ
  size : ℕ
  stat_flag : Bool
  deriving DecidableEq

/-- `depth` is what is left of the pool; the numbers are C integers. -/
structure Mempool where
  start : ℕ
  size : ℤ
  depth : ℤ
  min_depth : ℤ

structure CtrAlloc where
  slab_array_max_num : ℕ
  data_min_size : ℕ
  mempool_capacity : ℕ
  pool : List Mempool
  empty_pool : List Mempool
  free_slabs : List (List CtrSlab)
  used_slabs : List (List CtrSlab)
  used_huge_slabs : List CtrSlab
  alloc_count : ℤ
  /-- The regions that the system gave, with their lengths. -/
  regions : List (ℕ × ℕ)
  /-- The name of the next region. -/
  fresh : ℕ

namespace CtrAlloc

/-- The size of a header. -/
def header : ℕ := 80

/-- What an `int` makes of a number. -/
def int32 (n : ℤ) : ℤ := (BitVec.ofInt 32 n).toInt

/-- What a `size_t` makes of an `int`. -/
def sizeT (n : ℤ) : ℤ := if n < 0 then n + 18446744073709551616 else n

/-- `____pow(2, i) * data_min_size`, as unsigned integers. -/
def unit (min i : ℕ) : ℕ := 2 ^ i % 4294967296 * min % 4294967296

/-- The loop of `slab_get_slab_index` from class `i` on; to divide by zero is undefined. -/
def slabIndexFrom (min size : ℕ) : ℕ → ℕ → Option (Option ℕ)
  | 0, _ => some none
  | n + 1, i =>
    if unit min i = 0 then none
    else if size / unit min i = 0 ∨ size / unit min i = 1 ∧ size % unit min i = 0 then
      some (some i)
    else slabIndexFrom min size n (i + 1)

/-- The number of classes is compared as an `int`. -/
def slab_get_slab_index (t : CtrAlloc) (size : ℕ) : Option (Option ℕ) :=
  slabIndexFrom t.data_min_size size (int32 t.slab_array_max_num).toNat 0

def mempool_create (t : CtrAlloc) : CtrAlloc × Mempool :=
  let p : Mempool :=
    { start := t.fresh
      size := int32 t.mempool_capacity
      depth := int32 t.mempool_capacity
      min_depth := int32 (t.data_min_size + header) }
  ({ t with regions := (t.fresh, t.mempool_capacity) :: t.regions, fresh := t.fresh + 1 }, p)

/-- The system has memory for the first pool. -/
def init (slab_array_max_num data_min_size mempool_capacity : BitVec 32) : CtrAlloc :=
  let max := if slab_array_max_num = 0 then 12 else slab_array_max_num.toNat
  let min := if data_min_size = 0 then 8 else data_min_size.toNat
  let capacity := if mempool_capacity = 0 then unit min max else mempool_capacity.toNat
  let t : CtrAlloc :=
    { slab_array_max_num := max
      data_min_size := min
      mempool_capacity := capacity
      pool := []
      empty_pool := []
      free_slabs := List.replicate max []
      used_slabs := List.replicate max []
      used_huge_slabs := []
      alloc_count := 0
      regions := []
      fresh := 0 }
  let (t, p) := t.mempool_create
  { t with pool := [p] }

/-- Pools that are too small are skipped, and moved to the empty ones if nothing fits into them
any more. What is left of the list, the empty ones and the pool that was found. -/
def mempool_find_appropriate_pool (need : ℕ) :
    List Mempool → List Mempool → List Mempool × List Mempool × Option Mempool
  | [], empty => ([], empty, none)
  | p :: ps, empty =>
    if (need : ℤ) ≤ sizeT p.depth then (p :: ps, empty, some p)
    else if p.depth < p.min_depth then mempool_find_appropriate_pool need ps (p :: empty)
    else
      let r := mempool_find_appropriate_pool need ps empty
      (p :: r.1, r.2)

/-- A slab at the front of what is left of the pool. -/
def carve (t : CtrAlloc) (p : Mempool) (size real : ℕ) : Option (CtrAlloc × CtrSlab) :=
  let offset := p.size - p.depth
  if 0 ≤ offset ∧ ∃ r ∈ t.regions, r.1 = p.start ∧ offset + header ≤ r.2 then
    if real < size then none
    else
      let depth := int32 (p.depth - (real + header))
      some ({ t with pool := t.pool.map fun q ↦
                if q.start = p.start then { q with depth := depth } else q },
        ⟨p.start, offset.toNat, real, true⟩)
  else none

/-- `None` is a failure of the system; a pool that is made now is not asked whether it is large
enough. -/
def mempool_alloc_slab_list (t : CtrAlloc) (size i : ℕ) (mallocs : Bool) :
    Option (CtrAlloc × Option CtrSlab × List (ℕ × ℕ)) :=
  let real := unit t.data_min_size i
  let (pool, empty, found) := mempool_find_appropriate_pool (real + header) t.pool t.empty_pool
  let t := { t with pool := pool, empty_pool := empty }
  match found with
  | some p => do
    let (t, s) ← t.carve p size real
    return (t, some s, [])
  | none =>
    if mallocs then do
      let (t, p) := t.mempool_create
      let (t', s) ← { t with pool := p :: t.pool }.carve p size real
      return (t', some s, [(p.start, t.mempool_capacity)])
    else some (t, none, [])

def block (s : CtrSlab) : Block := ⟨s.region, s.offset + header, s.size⟩

def attachUsed (t : CtrAlloc) (i : ℕ) (s : CtrSlab) : CtrAlloc :=
  { t with used_slabs := t.used_slabs.modify i (s :: ·), alloc_count := t.alloc_count + 1 }

def alloc_normal_slab (t : CtrAlloc) (size i : ℕ) (mallocs : Bool) :
    Option (CtrAlloc × Option Block × List (ℕ × ℕ)) :=
  match t.free_slabs[i]? with
  | none => none
  | some (s :: rest) =>
    let s := { s with stat_flag := true }
    some ({ t with free_slabs := t.free_slabs.set i rest }.attachUsed i s, some (block s), [])
  | some [] =>
    match t.mempool_alloc_slab_list size i mallocs with
    | none => none
    | some (t, none, sys) => some (t, none, sys)
    | some (t, some s, sys) => some (t.attachUsed i s, some (block s), sys)

/-- The count goes up before the system is asked. -/
def alloc_huge_slab (t : CtrAlloc) (size : ℕ) (mallocs : Bool) :
    CtrAlloc × Option Block × List (ℕ × ℕ) :=
  let t := { t with alloc_count := t.alloc_count + 1 }
  if mallocs then
    let s : CtrSlab := ⟨t.fresh, 0, size, true⟩
    ({ t with
        used_huge_slabs := s :: t.used_huge_slabs
        regions := (t.fresh, size + header) :: t.regions
        fresh := t.fresh + 1 },
      some (block s), [(t.fresh, size + header)])
  else (t, none, [])

def alloc (t : CtrAlloc) (size : ℕ) (mallocs : Bool) :
    Option (CtrAlloc × Option Block × List (ℕ × ℕ)) :=
  match t.slab_get_slab_index size with
  | none => none
  | some none => some (t.alloc_huge_slab size mallocs)
  | some (some i) =>
    if t.mempool_capacity < size then some (t.alloc_huge_slab size mallocs)
    else t.alloc_normal_slab size i mallocs

/-- All headers. -/
def slabs (t : CtrAlloc) : List CtrSlab :=
  t.free_slabs.flatten ++ (t.used_slabs.flatten ++ t.used_huge_slabs)

/-- `list_del` takes a slab out of the list in which it is. -/
def listDel (t : CtrAlloc) (s : CtrSlab) : CtrAlloc :=
  { t with
    used_slabs := t.used_slabs.map (·.erase s)
    used_huge_slabs := t.used_huge_slabs.erase s }

/-- A region is given back at its start. -/
def free_huge_slab (t : CtrAlloc) (s : CtrSlab) : Option (CtrAlloc × List ℕ) :=
  if s.offset = 0 ∧ ∃ r ∈ t.regions, r.1 = s.region then
    let t := t.listDel s
    some ({ t with
      regions := t.regions.filter (fun r ↦ r.1 ≠ s.region)
      alloc_count := t.alloc_count - 1 }, [s.region])
  else none

def free_normal_slab (t : CtrAlloc) (s : CtrSlab) (i : ℕ) : CtrAlloc :=
  let t := t.listDel s
  { t with
    free_slabs := t.free_slabs.modify i ({ s with stat_flag := false } :: ·)
    alloc_count := t.alloc_count - 1 }

/-- The region and the offset of the data; what stands in front of it is a header, or anything. -/
def free (t : CtrAlloc) : Option (ℕ × ℕ) → Option (CtrAlloc × List ℕ)
  | none => some (t, [])
  | some addr =>
    match t.slabs.find? (fun s ↦ (s.region, s.offset + header) = addr) with
    | none => none
    | some s =>
      if s.stat_flag = false then some (t, [])
      else
        match t.slab_get_slab_index s.size with
        | none => none
        | some none => t.free_huge_slab s
        | some (some i) =>
          if t.mempool_capacity ≤ s.size then t.free_huge_slab s
          else some (t.free_normal_slab s i, [])

inductive Call
  | alloc (size : BitVec 32) (mallocs : Bool)
  | free (addr : Option (ℕ × ℕ))
  | alloc_count

inductive Answer
  | block (b : Option Block) (sys : List (ℕ × ℕ))
  | freed (sys : List ℕ)
  | count (n : ℤ)
  deriving DecidableEq

def call (t : CtrAlloc) : Call → Option (CtrAlloc × Answer)
  | .alloc size mallocs => (t.alloc size.toNat mallocs).map fun r ↦ (r.1, .block r.2.1 r.2.2)
  | .free addr => (t.free addr).map fun r ↦ (r.1, .freed r.2)
  | .alloc_count => some (t, .count t.alloc_count)

/-- The memory as the users of an allocator see it. -/
structure Memory where
  regions : List (ℕ × ℕ)
  live : List Block
  freed : List Block

def At (addr : ℕ × ℕ) (b : Block) : Prop := (b.region, b.offset) = addr

instance decidableAt (addr : ℕ × ℕ) (b : Block) : Decidable (At addr b) :=
  inferInstanceAs (Decidable (_ = _))

/-- A block that is given out is large enough, in memory that the system gave, and clear of the
live ones; it is a freed block of its class again or clear of the freed ones, too. A region that is
given back holds the freed block only. -/
def disjoint (sizeClass : ℕ → Option (Option ℕ)) : Spec Memory Call Answer where
  ok m
    | .alloc size _, .block (some b) sys =>
      (size.toNat ≤ b.length ∧ b.Inside (sys ++ m.regions)) ∧
        (∀ d ∈ m.live, b.Apart d) ∧ ∀ d ∈ m.freed,
          b = d ∧ sizeClass size.toNat = sizeClass d.length ∨ b.Apart d
    | .alloc _ _, .block none sys => sys = []
    | .free addr, .freed sys =>
      ∀ r ∈ sys, (∃ r' ∈ m.regions, r'.1 = r) ∧
        ∀ d ∈ m.live ++ m.freed, d.region = r → ∃ a ∈ addr, At a d
    | .alloc_count, .count n => n = m.live.length
    | _, _ => False
  next m
    | .alloc _ _, .block (some b) sys => ⟨sys ++ m.regions, b :: m.live, m.freed.erase b⟩
    | .free (some addr), .freed sys =>
      { regions := m.regions.filter (fun r ↦ r.1 ∉ sys)
        live := m.live.filter (fun b ↦ ¬At addr b)
        freed := if sys = [] then m.live.filter (fun b ↦ At addr b) ++ m.freed else m.freed }
    | _, _ => m

/-- A request that is not huge is for a class that fits a new pool behind a header, and a pool is a
positive C integer; for a huge one the system has memory; and what is freed was given out. -/
def Regular (t : CtrAlloc) : Call → Prop
  | .alloc size mallocs =>
    match t.slab_get_slab_index size.toNat with
    | none => False
    | some none => mallocs = true
    | some (some i) =>
      if t.mempool_capacity < size.toNat then mallocs = true
      else
        (mallocs = true → unit t.data_min_size i + header ≤ t.mempool_capacity) ∧
          t.mempool_capacity < 2147483648
  | .free addr => ∀ a ∈ addr, ∃ s ∈ t.slabs, (s.region, s.offset + header) = a
  | .alloc_count => True

/-- Two slabs have no byte in common, their headers included. -/
def Clear (s u : CtrSlab) : Prop :=
  s.region ≠ u.region ∨ s.offset + header + s.size ≤ u.offset ∨
    u.offset + header + u.size ≤ s.offset

def pools (t : CtrAlloc) : List Mempool := t.pool ++ t.empty_pool

/-- The slab is of class `i`, in the part of a pool that was used. -/
def Normal (t : CtrAlloc) (i : ℕ) (s : CtrSlab) : Prop :=
  s.size = unit t.data_min_size i ∧ t.slab_get_slab_index s.size = some (some i) ∧
    (s.size < t.mempool_capacity ∧ t.mempool_capacity < 2147483648) ∧
      ∃ p ∈ t.pools, p.start = s.region ∧
        (s.offset + header + s.size : ℤ) ≤ t.mempool_capacity - p.depth

/-- The slab is a region of its own. -/
def Huge (t : CtrAlloc) (s : CtrSlab) : Prop :=
  (t.slab_get_slab_index s.size = some none ∨
      ∃ i, t.slab_get_slab_index s.size = some (some i) ∧ t.mempool_capacity < s.size) ∧
    s.offset = 0 ∧ (s.region, s.size + header) ∈ t.regions ∧ ∀ p ∈ t.pools, p.start ≠ s.region

/-- The allocator is in order, and the memory is what its lists say. -/
structure Holds (sizeClass : ℕ → Option (Option ℕ)) (t : CtrAlloc) (m : Memory) : Prop where
  regions_eq : m.regions = t.regions
  live_perm : m.live.Perm ((t.used_slabs.flatten ++ t.used_huge_slabs).map block)
  freed_perm : m.freed.Perm (t.free_slabs.flatten.map block)
  clear : t.slabs.Pairwise Clear
  in_use : ∀ s ∈ t.used_slabs.flatten ++ t.used_huge_slabs, s.stat_flag = true
  waiting : ∀ s ∈ t.free_slabs.flatten, s.stat_flag = false
  free_normal : ∀ i ss, t.free_slabs[i]? = some ss → ∀ s ∈ ss, t.Normal i s
  used_normal : ∀ s ∈ t.used_slabs.flatten, ∃ i, t.Normal i s
  huge : ∀ s ∈ t.used_huge_slabs, t.Huge s
  lt_fresh : ∀ r ∈ t.regions, r.1 < t.fresh
  pool_mem : ∀ p ∈ t.pools, (p.start, t.mempool_capacity) ∈ t.regions
  pool_depth : t.mempool_capacity < 2147483648 → ∀ p ∈ t.pools,
    p.size = t.mempool_capacity ∧ 0 ≤ p.depth ∧ p.depth ≤ t.mempool_capacity
  pool_nodup : (t.pools.map Mempool.start).Nodup
  count_eq : t.alloc_count = m.live.length
  length_free : t.free_slabs.length = t.slab_array_max_num
  length_used : t.used_slabs.length = t.slab_array_max_num
  index_eq : t.slab_get_slab_index = sizeClass

theorem fits_iff {size u : ℕ} (hu : u ≠ 0) :
    (size / u = 0 ∨ size / u = 1 ∧ size % u = 0) ↔ size ≤ u := by
  have hpos : 0 < u := Nat.pos_of_ne_zero hu
  constructor
  · rintro (h | ⟨h, h'⟩)
    · rw [Nat.div_eq_zero_iff] at h
      omega
    · have hdiv := Nat.div_add_mod size u
      rw [h, h'] at hdiv
      omega
  · intro h
    rcases Nat.lt_or_eq_of_le h with h | rfl
    · exact .inl (Nat.div_eq_of_lt h)
    · exact .inr ⟨Nat.div_self hpos, Nat.mod_self size⟩

theorem slabIndexFrom_some {min size n i j : ℕ}
    (h : slabIndexFrom min size n i = some (some j)) :
    size ≤ unit min j ∧ j < i + n ∧ slabIndexFrom min (unit min j) n i = some (some j) := by
  induction n generalizing i with
  | zero => cases h
  | succ n ih =>
    rw [slabIndexFrom] at h
    split_ifs at h with hzero hfits
    · cases h
      rw [fits_iff hzero] at hfits
      refine ⟨hfits, by omega, ?_⟩
      rw [slabIndexFrom, if_neg hzero, if_pos ((fits_iff hzero).mpr le_rfl)]
    · obtain ⟨hle, hlt, hself⟩ := ih h
      refine ⟨hle, by omega, ?_⟩
      rw [fits_iff hzero] at hfits
      have hnot : ¬unit min j ≤ unit min i := fun hle' ↦ hfits (hle.trans hle')
      rw [slabIndexFrom, if_neg hzero, if_neg (by rwa [fits_iff hzero]), hself]

theorem int32_of_lt {n : ℕ} (h : n < 2147483648) : int32 n = n := by
  rw [int32, BitVec.toInt_ofInt]
  exact Int.bmod_eq_of_le (by omega) (by omega)

theorem int32_le (n : ℕ) : (int32 n).toNat ≤ n := by
  rw [int32, BitVec.toInt_ofInt, Int.bmod_def]
  split_ifs <;> omega

theorem slab_get_slab_index_some {t : CtrAlloc} {size i : ℕ}
    (h : t.slab_get_slab_index size = some (some i)) :
    size ≤ unit t.data_min_size i ∧ i < t.slab_array_max_num ∧
      t.slab_get_slab_index (unit t.data_min_size i) = some (some i) := by
  obtain ⟨hle, hlt, hself⟩ := slabIndexFrom_some h
  have hmax := int32_le t.slab_array_max_num
  exact ⟨hle, by omega, hself⟩

theorem find_appropriate_pool (need : ℕ) (ps empty : List Mempool) :
    ((mempool_find_appropriate_pool need ps empty).1 ++
        (mempool_find_appropriate_pool need ps empty).2.1).Perm (ps ++ empty) ∧
      ∀ p ∈ (mempool_find_appropriate_pool need ps empty).2.2,
        p ∈ (mempool_find_appropriate_pool need ps empty).1 ∧ (need : ℤ) ≤ sizeT p.depth := by
  induction ps generalizing empty with
  | nil => exact ⟨.refl _, fun p hp ↦ by cases hp⟩
  | cons p ps ih =>
    rw [mempool_find_appropriate_pool]
    split_ifs with hfits hempty
    · refine ⟨.refl _, ?_⟩
      intro q hq
      cases hq
      exact ⟨List.mem_cons_self, hfits⟩
    · refine ⟨(ih _).1.trans ?_, (ih _).2⟩
      exact List.perm_middle
    · refine ⟨(ih _).1.cons p, ?_⟩
      intro q hq
      exact ⟨List.mem_cons_of_mem p ((ih _).2 q hq).1, ((ih _).2 q hq).2⟩

theorem flatten_set_tail {α : Type} {ls : List (List α)} {i : ℕ} {a : α} {l : List α}
    (h : ls[i]? = some (a :: l)) : ls.flatten.Perm (a :: (ls.set i l).flatten) := by
  induction ls generalizing i with
  | nil => cases h
  | cons k ls ih =>
    cases i with
    | zero =>
      cases h
      exact .refl _
    | succ i =>
      rw [List.getElem?_cons_succ] at h
      rw [List.set_cons_succ, List.flatten_cons, List.flatten_cons]
      exact ((ih h).append_left k).trans List.perm_middle

theorem flatten_modify_cons {α : Type} {ls : List (List α)} {i : ℕ} (a : α) (h : i < ls.length) :
    (ls.modify i (a :: ·)).flatten.Perm (a :: ls.flatten) := by
  induction ls generalizing i with
  | nil => cases h
  | cons k ls ih =>
    cases i with
    | zero => exact .refl _
    | succ i =>
      rw [List.length_cons, Nat.succ_lt_succ_iff] at h
      rw [List.modify_succ_cons, List.flatten_cons, List.flatten_cons]
      exact ((ih h).append_left k).trans List.perm_middle

theorem flatten_map_erase {α : Type} [DecidableEq α] {ls : List (List α)} (a : α)
    (h : ls.flatten.Nodup) : (ls.map (·.erase a)).flatten = ls.flatten.erase a := by
  induction ls with
  | nil => rfl
  | cons k ls ih =>
    rw [List.flatten_cons, List.nodup_append'] at h
    obtain ⟨hk, hls, hdisj⟩ := h
    rw [List.map_cons, List.flatten_cons, List.flatten_cons, ih hls]
    by_cases ha : a ∈ k
    · rw [List.erase_append_left _ ha, List.erase_of_not_mem fun h ↦ hdisj ha h]
    · rw [List.erase_append_right _ ha, List.erase_of_not_mem ha]

theorem mem_of_mem_erased {α : Type} [DecidableEq α] {ls : List (List α)} {a b : α}
    (h : b ∈ (ls.map (·.erase a)).flatten) : b ∈ ls.flatten := by
  obtain ⟨k, hk, hb⟩ := List.mem_flatten.mp h
  obtain ⟨l, hl, rfl⟩ := List.mem_map.mp hk
  exact List.mem_flatten.mpr ⟨l, hl, List.mem_of_mem_erase hb⟩

theorem listDel_perm {t : CtrAlloc} {s : CtrSlab}
    (hnodup : (t.used_slabs.flatten ++ t.used_huge_slabs).Nodup)
    (hs : s ∈ t.used_slabs.flatten ++ t.used_huge_slabs) :
    (t.used_slabs.flatten ++ t.used_huge_slabs).Perm
      (s :: ((t.listDel s).used_slabs.flatten ++ (t.listDel s).used_huge_slabs)) := by
  rw [List.nodup_append'] at hnodup
  obtain ⟨hused, hhuge, hdisj⟩ := hnodup
  rw [listDel, flatten_map_erase s hused]
  by_cases hmem : s ∈ t.used_slabs.flatten
  · rw [List.erase_of_not_mem (fun h ↦ hdisj hmem h), ← List.cons_append]
    exact (List.perm_cons_erase hmem).append_right _
  · have hmem' : s ∈ t.used_huge_slabs := by
      rcases List.mem_append.mp hs with h | h
      · exact absurd h hmem
      · exact h
    rw [List.erase_of_not_mem hmem]
    exact ((List.perm_cons_erase hmem').append_left _).trans List.perm_middle

theorem apart_symm {b d : Block} (h : b.Apart d) : d.Apart b := by
  rcases h with h | h | h
  · exact .inl h.symm
  · exact .inr (.inr h)
  · exact .inr (.inl h)

section Clear

theorem Clear.symm {s u : CtrSlab} (h : Clear s u) : Clear u s := by
  rcases h with h | h | h
  · exact .inl h.symm
  · exact .inr (.inr h)
  · exact .inr (.inl h)

theorem not_clear_self (s : CtrSlab) : ¬Clear s s := by
  rintro (h | h | h)
  · exact h rfl
  · rw [header] at h
    omega
  · rw [header] at h
    omega

theorem Clear.apart {s u : CtrSlab} (h : Clear s u) : (block s).Apart (block u) := by
  rcases h with h | h | h
  · exact .inl h
  · refine .inr (.inl ?_)
    change s.offset + header + s.size ≤ u.offset + header
    omega
  · refine .inr (.inr ?_)
    change u.offset + header + u.size ≤ s.offset + header
    omega

theorem Clear.not_at {s u : CtrSlab} (h : Clear s u) {addr : ℕ × ℕ}
    (hs : (s.region, s.offset + header) = addr) : ¬At addr (block u) := by
  rintro rfl
  rw [block] at hs
  rcases h with h | h | h
  · exact h (congrArg Prod.fst hs)
  · have hoff : s.offset + header = u.offset + header := congrArg Prod.snd hs
    rw [header] at h hoff
    omega
  · have hoff : s.offset + header = u.offset + header := congrArg Prod.snd hs
    rw [header] at h hoff
    omega

theorem nodup_of_clear {ss : List CtrSlab} (h : ss.Pairwise Clear) : ss.Nodup := by
  apply h.imp
  rintro s u hclear rfl
  exact not_clear_self s hclear

end Clear

namespace Holds

variable {c : ℕ → Option (Option ℕ)} {t : CtrAlloc} {m : Memory}

theorem set_pools (ht : Holds c t m) {pool empty : List Mempool}
    (hperm : (pool ++ empty).Perm t.pools) :
    Holds c { t with pool := pool, empty_pool := empty } m := by
  have hmem : ∀ p, p ∈ pool ++ empty ↔ p ∈ t.pools := fun p ↦ hperm.mem_iff
  have hnormal : ∀ i s, t.Normal i s →
      ({ t with pool := pool, empty_pool := empty } : CtrAlloc).Normal i s := by
    rintro i s ⟨hsize, hindex, hlt, p, hp, hstart, hend⟩
    exact ⟨hsize, hindex, hlt, p, (hmem p).mpr hp, hstart, hend⟩
  refine ⟨ht.regions_eq, ht.live_perm, ht.freed_perm, ht.clear, ht.in_use, ht.waiting, ?_, ?_, ?_,
    ht.lt_fresh, ?_, ?_, ?_, ht.count_eq, ht.length_free, ht.length_used,
    ht.index_eq⟩
  · exact fun i ss hss s hs ↦ hnormal i s (ht.free_normal i ss hss s hs)
  · intro s hs
    obtain ⟨i, hi⟩ := ht.used_normal s hs
    exact ⟨i, hnormal i s hi⟩
  · intro s hs
    obtain ⟨hclass, hoff, hregion, hpools⟩ := ht.huge s hs
    exact ⟨hclass, hoff, hregion, fun p hp ↦ hpools p ((hmem p).mp hp)⟩
  · exact fun p hp ↦ ht.pool_mem p ((hmem p).mp hp)
  · exact fun hcap p hp ↦ ht.pool_depth hcap p ((hmem p).mp hp)
  · exact (hperm.map Mempool.start).nodup_iff.mpr ht.pool_nodup

theorem slab_cases (ht : Holds c t m) {s : CtrSlab} (hs : s ∈ t.slabs) :
    (∃ i, t.Normal i s) ∨ s ∈ t.used_huge_slabs ∧ t.Huge s := by
  rcases List.mem_append.mp hs with hfree | hs
  · obtain ⟨ss, hss, hs⟩ := List.mem_flatten.mp hfree
    obtain ⟨i, hi⟩ := List.mem_iff_getElem?.mp hss
    exact .inl ⟨i, ht.free_normal i ss hi s hs⟩
  · rcases List.mem_append.mp hs with hused | hhuge
    · exact .inl (ht.used_normal s hused)
    · exact .inr ⟨hhuge, ht.huge s hhuge⟩

theorem region_mem (ht : Holds c t m) {s : CtrSlab} (hs : s ∈ t.slabs) :
    ∃ r ∈ t.regions, r.1 = s.region := by
  rcases ht.slab_cases hs with ⟨i, -, -, -, p, hp, hstart, -⟩ | ⟨-, -, -, hregion, -⟩
  · exact ⟨_, ht.pool_mem p hp, hstart⟩
  · exact ⟨_, hregion, rfl⟩

theorem pool_ext (ht : Holds c t m) {p q : Mempool} (hp : p ∈ t.pools) (hq : q ∈ t.pools)
    (h : q.start = p.start) : q = p :=
  List.inj_on_of_nodup_map ht.pool_nodup hq hp h

theorem add_pool (ht : Holds c t m) :
    Holds c { t.mempool_create.1 with pool := t.mempool_create.2 :: t.pool }
      { m with regions := (t.fresh, t.mempool_capacity) :: m.regions } := by
  have hnormal : ∀ i s, t.Normal i s →
      ({ t.mempool_create.1 with pool := t.mempool_create.2 :: t.pool } : CtrAlloc).Normal i s := by
    rintro i s ⟨hsize, hindex, hlt, p, hp, hstart, hend⟩
    exact ⟨hsize, hindex, hlt, p, List.mem_cons_of_mem _ hp, hstart, hend⟩
  refine ⟨?_, ht.live_perm, ht.freed_perm, ht.clear, ht.in_use, ht.waiting, ?_, ?_, ?_, ?_, ?_, ?_,
    ?_, ht.count_eq, ht.length_free, ht.length_used,
    ht.index_eq⟩
  · change _ :: m.regions = _ :: t.regions
    rw [ht.regions_eq]
  · exact fun i ss hss s hs ↦ hnormal i s (ht.free_normal i ss hss s hs)
  · intro s hs
    obtain ⟨i, hi⟩ := ht.used_normal s hs
    exact ⟨i, hnormal i s hi⟩
  · intro s hs
    obtain ⟨hclass, hoff, hregion, hpools⟩ := ht.huge s hs
    refine ⟨hclass, hoff, List.mem_cons_of_mem _ hregion, ?_⟩
    intro p hp
    rcases List.mem_cons.mp hp with rfl | hp
    · exact Nat.ne_of_gt (ht.lt_fresh _ hregion)
    · exact hpools p hp
  · intro r hr
    rcases List.mem_cons.mp hr with rfl | hr
    · exact Nat.lt_succ_self _
    · exact Nat.lt_succ_of_lt (ht.lt_fresh r hr)
  · intro p hp
    rcases List.mem_cons.mp hp with rfl | hp
    · exact List.mem_cons_self
    · exact List.mem_cons_of_mem _ (ht.pool_mem p hp)
  · intro hcap p hp
    rcases List.mem_cons.mp hp with rfl | hp
    · have hint : int32 t.mempool_capacity = t.mempool_capacity := int32_of_lt hcap
      refine ⟨hint, ?_, hint.le⟩
      change 0 ≤ int32 t.mempool_capacity
      rw [hint]
      exact Int.natCast_nonneg _
    · exact ht.pool_depth hcap p hp
  · change (t.fresh :: (t.pool ++ t.empty_pool).map Mempool.start).Nodup
    rw [List.nodup_cons]
    refine ⟨?_, ht.pool_nodup⟩
    intro hmem
    obtain ⟨p, hp, hstart⟩ := List.mem_map.mp hmem
    have hlt := ht.lt_fresh _ (ht.pool_mem p hp)
    rw [hstart] at hlt
    exact Nat.lt_irrefl _ hlt

theorem carve (ht : Holds c t m) {p : Mempool} (hp : p ∈ t.pool) {size i : ℕ}
    (hindex : t.slab_get_slab_index size = some (some i))
    (hcap : t.mempool_capacity < 2147483648)
    (hdepth : (unit t.data_min_size i + header : ℤ) ≤ p.depth) :
    ∃ t' s, t.carve p size (unit t.data_min_size i) = some (t', s) ∧ Holds c t' m ∧
      t'.Normal i s ∧ s.stat_flag = true ∧ (∀ u ∈ t'.slabs, Clear s u) ∧
      t'.slab_array_max_num = t.slab_array_max_num ∧ size ≤ s.size := by
  obtain ⟨hle, -, hself⟩ := slab_get_slab_index_some hindex
  have hp' : p ∈ t.pools := List.mem_append_left _ hp
  obtain ⟨hsize, -, hdepth'⟩ := ht.pool_depth hcap p hp'
  have hpos : (0 : ℤ) ≤ unit t.data_min_size i := Int.natCast_nonneg _
  have hheader : (header : ℤ) = 80 := rfl
  have hreal : ((unit t.data_min_size i + header : ℕ) : ℤ) =
      unit t.data_min_size i + header := by push_cast; rfl
  -- what is left of the pool is a C integer
  have hint : int32 (p.depth - (unit t.data_min_size i + header)) =
      p.depth - (unit t.data_min_size i + header) := by
    have hnat : p.depth - (unit t.data_min_size i + header) =
        ((p.depth - (unit t.data_min_size i + header)).toNat : ℤ) := by omega
    rw [hnat]
    exact int32_of_lt (by omega)
  let f : Mempool → Mempool := fun q ↦
    if q.start = p.start then
      { q with depth := p.depth - (unit t.data_min_size i + header) } else q
  let s : CtrSlab := ⟨p.start, (p.size - p.depth).toNat, unit t.data_min_size i, true⟩
  have hcarve : t.carve p size (unit t.data_min_size i) =
      some ({ t with pool := t.pool.map f }, s) := by
    rw [CtrAlloc.carve]
    simp only [hint]
    rw [if_pos, if_neg (by omega)]
    refine ⟨by omega, _, ht.pool_mem p hp', rfl, ?_⟩
    change p.size - p.depth + (header : ℤ) ≤ t.mempool_capacity
    omega
  have hf : ∀ q ∈ t.pools, (f q).start = q.start ∧ (f q).size = q.size ∧
      (f q).depth ≤ q.depth ∧ (0 ≤ q.depth → 0 ≤ (f q).depth) := by
    intro q hq
    by_cases hstart : q.start = p.start
    · have hqp := ht.pool_ext hp' hq hstart
      subst hqp
      simp only [f, if_pos]
      exact ⟨trivial, trivial, by omega, fun _ ↦ by omega⟩
    · simp only [f, if_neg hstart]
      exact ⟨trivial, trivial, le_rfl, id⟩
  have hold : ∀ q ∈ t.pool.map f ++ t.empty_pool, ∃ q' ∈ t.pools, q.start = q'.start ∧
      q.size = q'.size ∧ q.depth ≤ q'.depth ∧ (0 ≤ q'.depth → 0 ≤ q.depth) := by
    intro q hq
    rcases List.mem_append.mp hq with hq | hq
    · obtain ⟨q', hq', rfl⟩ := List.mem_map.mp hq
      exact ⟨q', List.mem_append_left _ hq', hf q' (List.mem_append_left _ hq')⟩
    · exact ⟨q, List.mem_append_right _ hq, rfl, rfl, le_rfl, id⟩
  have hnormal : ∀ j u, t.Normal j u →
      ({ t with pool := t.pool.map f } : CtrAlloc).Normal j u := by
    rintro j u ⟨husize, huindex, hlt, q, hq, hstart, hend⟩
    rcases List.mem_append.mp hq with hq' | hq'
    · obtain ⟨hfs, -, hfd, -⟩ := hf q hq
      refine ⟨husize, huindex, hlt, f q, List.mem_append_left _ (List.mem_map_of_mem hq'),
        hfs.trans hstart, ?_⟩
      change _ ≤ (t.mempool_capacity : ℤ) - (f q).depth
      omega
    · exact ⟨husize, huindex, hlt, q, List.mem_append_right _ hq', hstart, hend⟩
  refine ⟨{ t with pool := t.pool.map f }, s, hcarve, ?_, ?_, rfl, ?_, rfl, hle⟩
  · refine ⟨ht.regions_eq, ht.live_perm, ht.freed_perm, ht.clear, ht.in_use, ht.waiting, ?_, ?_,
      ?_, ht.lt_fresh, ?_, ?_, ?_, ht.count_eq, ht.length_free, ht.length_used,
    ht.index_eq⟩
    · exact fun j ss hss u hu ↦ hnormal j u (ht.free_normal j ss hss u hu)
    · intro u hu
      obtain ⟨j, hj⟩ := ht.used_normal u hu
      exact ⟨j, hnormal j u hj⟩
    · intro u hu
      obtain ⟨hclass, hoff, hregion, hpools⟩ := ht.huge u hu
      refine ⟨hclass, hoff, hregion, ?_⟩
      intro q hq
      obtain ⟨q', hq', hstart, -⟩ := hold q hq
      rw [hstart]
      exact hpools q' hq'
    · intro q hq
      obtain ⟨q', hq', hstart, -⟩ := hold q hq
      rw [hstart]
      exact ht.pool_mem q' hq'
    · intro hcap q hq
      obtain ⟨q', hq', -, hqsize, hle', hnonneg⟩ := hold q hq
      obtain ⟨hsize', hnn, hle''⟩ := ht.pool_depth hcap q' hq'
      refine ⟨hqsize.trans hsize', hnonneg hnn, ?_⟩
      change q.depth ≤ (t.mempool_capacity : ℤ)
      omega
    · change ((t.pool.map f ++ t.empty_pool).map Mempool.start).Nodup
      have hsame : (t.pool.map f).map Mempool.start = t.pool.map Mempool.start := by
        rw [List.map_map]
        apply List.map_congr_left
        intro q hq
        exact (hf q (List.mem_append_left _ hq)).1
      rw [List.map_append, hsame, ← List.map_append]
      exact ht.pool_nodup
  · refine ⟨rfl, hself, ⟨?_, hcap⟩, f p, List.mem_append_left _ (List.mem_map_of_mem hp),
      (hf p hp').1, ?_⟩
    · change unit t.data_min_size i < t.mempool_capacity
      omega
    · have hfp : (f p).depth = p.depth - (unit t.data_min_size i + header) := by
        simp only [f, if_pos]
      have hoff : (((p.size - p.depth).toNat : ℕ) : ℤ) = p.size - p.depth := by omega
      change ((p.size - p.depth).toNat : ℤ) + header + unit t.data_min_size i ≤
        t.mempool_capacity - (f p).depth
      rw [hfp, hoff]
      omega
  · intro u hu
    rcases ht.slab_cases hu with ⟨j, -, -, -, q, hq, hstart, hend⟩ | ⟨-, -, -, -, hpools⟩
    · by_cases hqp : q.start = p.start
      · have heq := ht.pool_ext hp' hq hqp
        subst heq
        refine .inr (.inr ?_)
        change u.offset + header + u.size ≤ (q.size - q.depth).toNat
        omega
      · refine .inl ?_
        change p.start ≠ u.region
        rw [← hstart]
        exact Ne.symm hqp
    · exact .inl (hpools p hp')

theorem block_mem_live (ht : Holds c t m) {d : Block} (hd : d ∈ m.live) :
    ∃ u ∈ t.used_slabs.flatten ++ t.used_huge_slabs, block u = d :=
  List.mem_map.mp (ht.live_perm.mem_iff.mp hd)

theorem block_mem_freed (ht : Holds c t m) {d : Block} (hd : d ∈ m.freed) :
    ∃ u ∈ t.free_slabs.flatten, block u = d :=
  List.mem_map.mp (ht.freed_perm.mem_iff.mp hd)

theorem attachUsed (ht : Holds c t m) {i : ℕ} {s : CtrSlab} (hi : i < t.slab_array_max_num)
    (hs : t.Normal i s) (hflag : s.stat_flag = true) (hclear : ∀ u ∈ t.slabs, Clear s u) :
    Holds c (t.attachUsed i s) { m with live := block s :: m.live } := by
  have hperm : (t.used_slabs.modify i (s :: ·)).flatten.Perm (s :: t.used_slabs.flatten) :=
    flatten_modify_cons s (by rw [ht.length_used]; exact hi)
  have hperm' : ((t.used_slabs.modify i (s :: ·)).flatten ++ t.used_huge_slabs).Perm
      (s :: (t.used_slabs.flatten ++ t.used_huge_slabs)) := hperm.append_right _
  refine ⟨ht.regions_eq, ?_, ht.freed_perm, ?_, ?_, ht.waiting, ht.free_normal, ?_, ht.huge,
    ht.lt_fresh, ht.pool_mem, ht.pool_depth, ht.pool_nodup, ?_, ht.length_free, ?_, ht.index_eq⟩
  · exact (ht.live_perm.cons (block s)).trans (hperm'.map block).symm
  · have hall : (t.attachUsed i s).slabs.Perm (s :: t.slabs) :=
      (hperm'.append_left t.free_slabs.flatten).trans List.perm_middle
    exact (hall.pairwise_iff fun h ↦ h.symm).mpr (List.pairwise_cons.mpr ⟨hclear, ht.clear⟩)
  · intro u hu
    rcases List.mem_cons.mp (hperm'.mem_iff.mp hu) with rfl | hu
    · exact hflag
    · exact ht.in_use u hu
  · intro u hu
    rcases List.mem_cons.mp (hperm.mem_iff.mp hu) with rfl | hu
    · exact ⟨i, hs⟩
    · exact ht.used_normal u hu
  · change t.alloc_count + 1 = ((block s :: m.live).length : ℤ)
    rw [ht.count_eq, List.length_cons]
    push_cast
    rfl
  · change (t.used_slabs.modify i (s :: ·)).length = t.slab_array_max_num
    rw [List.length_modify]
    exact ht.length_used

theorem take_free (ht : Holds c t m) {i : ℕ} {s : CtrSlab} {rest : List CtrSlab}
    (hfree : t.free_slabs[i]? = some (s :: rest)) :
    Holds c { t with free_slabs := t.free_slabs.set i rest }
        { m with freed := m.freed.erase (block s) } ∧
      block s ∈ m.freed ∧
      ∀ u ∈ ({ t with free_slabs := t.free_slabs.set i rest } : CtrAlloc).slabs, Clear s u := by
  have hperm := flatten_set_tail hfree
  have hall : t.slabs.Perm
      (s :: ({ t with free_slabs := t.free_slabs.set i rest } : CtrAlloc).slabs) :=
    hperm.append_right _
  have hclear := (hall.pairwise_iff fun h ↦ h.symm).mp ht.clear
  rw [List.pairwise_cons] at hclear
  have hfreed : m.freed.Perm (block s :: ((t.free_slabs.set i rest).flatten.map block)) :=
    ht.freed_perm.trans (hperm.map block)
  refine ⟨⟨ht.regions_eq, ht.live_perm, ?_, hclear.2, ht.in_use, ?_, ?_, ht.used_normal, ht.huge,
    ht.lt_fresh, ht.pool_mem, ht.pool_depth, ht.pool_nodup, ht.count_eq, ?_, ht.length_used,
    ht.index_eq⟩,
    hfreed.mem_iff.mpr List.mem_cons_self, hclear.1⟩
  · have herase := hfreed.erase (block s)
    rwa [List.erase_cons_head] at herase
  · exact fun u hu ↦ ht.waiting u (hperm.mem_iff.mpr (List.mem_cons_of_mem s hu))
  · intro j ss hss u hu
    by_cases hj : i = j
    · subst hj
      have hlt := (List.getElem?_eq_some_iff.mp hfree).1
      rw [List.getElem?_set_self hlt] at hss
      cases hss
      exact ht.free_normal i _ hfree u (List.mem_cons_of_mem s hu)
    · rw [List.getElem?_set_ne hj] at hss
      exact ht.free_normal j ss hss u hu
  · change (t.free_slabs.set i rest).length = t.slab_array_max_num
    rw [List.length_set]
    exact ht.length_free

theorem inside (ht : Holds c t m) {i : ℕ} {s : CtrSlab} (hs : t.Normal i s) :
    (block s).Inside t.regions := by
  obtain ⟨-, -, ⟨-, hcap⟩, p, hp, hstart, hend⟩ := hs
  obtain ⟨-, hnonneg, -⟩ := ht.pool_depth hcap p hp
  refine ⟨_, ht.pool_mem p hp, hstart, ?_⟩
  change s.offset + header + s.size ≤ t.mempool_capacity
  omega

theorem mem_slabs_of_used {s : CtrSlab}
    (hs : s ∈ t.used_slabs.flatten ++ t.used_huge_slabs) : s ∈ t.slabs :=
  List.mem_append_right _ hs

theorem mem_slabs_of_free {s : CtrSlab} (hs : s ∈ t.free_slabs.flatten) : s ∈ t.slabs :=
  List.mem_append_left _ hs

theorem give (sys : List (ℕ × ℕ)) (ht : Holds c t { m with regions := sys ++ m.regions }) {i : ℕ}
    {s : CtrSlab} (hi : i < t.slab_array_max_num) (hs : t.Normal i s) (hflag : s.stat_flag = true)
    (hclear : ∀ u ∈ t.slabs, Clear s u) {size : BitVec 32} (hsize : size.toNat ≤ s.size)
    (mallocs : Bool) :
    (disjoint c).ok m (.alloc size mallocs) (.block (some (block s)) sys) ∧
      Holds c (t.attachUsed i s)
        ((disjoint c).next m (.alloc size mallocs) (.block (some (block s)) sys)) := by
  have hinside := ht.inside hs
  rw [← ht.regions_eq] at hinside
  have hnew : block s ∉ m.freed := by
    intro hmem
    obtain ⟨u, hu, heq⟩ := ht.block_mem_freed hmem
    apply (hclear u (mem_slabs_of_free hu)).not_at rfl
    rw [heq]
    rfl
  refine ⟨⟨⟨hsize, hinside⟩, ?_, ?_⟩, ?_⟩
  · intro d hd
    obtain ⟨u, hu, rfl⟩ := ht.block_mem_live hd
    exact (hclear u (mem_slabs_of_used hu)).apart
  · intro d hd
    obtain ⟨u, hu, rfl⟩ := ht.block_mem_freed hd
    exact .inr (hclear u (mem_slabs_of_free hu)).apart
  · have hattach := ht.attachUsed hi hs hflag hclear
    change Holds c _ ⟨sys ++ m.regions, block s :: m.live, m.freed.erase (block s)⟩
    rwa [List.erase_of_not_mem hnew]

theorem alloc_normal (ht : Holds c t m) {size : BitVec 32} {i : ℕ}
    (hindex : t.slab_get_slab_index size.toNat = some (some i))
    {mallocs : Bool} (hfits : mallocs = true → unit t.data_min_size i + header ≤ t.mempool_capacity)
    (hcap : t.mempool_capacity < 2147483648) :
    ∃ t' b sys, t.alloc_normal_slab size.toNat i mallocs = some (t', b, sys) ∧
      (disjoint c).ok m (.alloc size mallocs) (.block b sys) ∧
      Holds c t' ((disjoint c).next m (.alloc size mallocs) (.block b sys)) := by
  obtain ⟨hle, hi, -⟩ := slab_get_slab_index_some hindex
  have hlen : i < t.free_slabs.length := by rw [ht.length_free]; exact hi
  rw [alloc_normal_slab]
  cases hfree : t.free_slabs[i]? with
  | none =>
    rw [List.getElem?_eq_getElem hlen] at hfree
    cases hfree
  | some ss =>
    cases ss with
    | cons s rest =>
      -- a slab of the class waits
      obtain ⟨ht', hmem, hclear⟩ := ht.take_free hfree
      have hnormal := ht.free_normal i _ hfree s List.mem_cons_self
      have hattach := ht'.attachUsed hi (s := { s with stat_flag := true }) hnormal rfl hclear
      refine ⟨_, _, [], rfl, ⟨⟨?_, ?_⟩, ?_, ?_⟩, hattach⟩
      · change size.toNat ≤ s.size
        rw [hnormal.1]
        exact hle
      · have hinside := ht.inside hnormal
        rw [← ht.regions_eq] at hinside
        exact hinside
      · intro d hd
        obtain ⟨u, hu, rfl⟩ := ht.block_mem_live hd
        exact Clear.apart (s := s) (hclear u (mem_slabs_of_used hu))
      · intro d hd
        by_cases hds : block s = d
        · subst hds
          refine .inl ⟨rfl, ?_⟩
          rw [← ht.index_eq, hindex]
          exact hnormal.2.1.symm
        · obtain ⟨u, hu, rfl⟩ := ht'.block_mem_freed
            ((List.mem_erase_of_ne (Ne.symm hds)).mpr hd)
          exact .inr (Clear.apart (s := s) (hclear u (mem_slabs_of_free hu)))
    | nil =>
      simp only [mempool_alloc_slab_list]
      have hfind := find_appropriate_pool (unit t.data_min_size i + header) t.pool t.empty_pool
      cases hr : mempool_find_appropriate_pool (unit t.data_min_size i + header) t.pool
        t.empty_pool with
      | mk pool r =>
        obtain ⟨empty, found⟩ := r
        rw [hr] at hfind
        obtain ⟨hperm, hfound⟩ := hfind
        have ht' := ht.set_pools hperm
        cases found with
        | some p =>
          obtain ⟨hp, hneed⟩ := hfound p rfl
          obtain ⟨-, hnonneg, -⟩ := ht'.pool_depth hcap p (List.mem_append_left _ hp)
          have hdepth : (unit t.data_min_size i + header : ℤ) ≤ p.depth := by
            rw [sizeT, if_neg (by omega)] at hneed
            exact_mod_cast hneed
          obtain ⟨t₁, s, hcarve, ht₁, hs, hflag, hclear, hmax, hsize⟩ :=
            ht'.carve hp hindex hcap hdepth
          obtain ⟨hok, hholds⟩ := Holds.give [] ht₁ (hmax ▸ hi) hs hflag hclear
            hsize mallocs
          refine ⟨_, _, [], ?_, hok, hholds⟩
          simp only [hcarve, Option.bind_eq_bind, Option.bind_some]
          rfl
        | none =>
          cases mallocs with
          | false => exact ⟨_, none, [], rfl, rfl, ht'⟩
          | true =>
            have ht₀ := ht'.add_pool
            have hint : int32 t.mempool_capacity = t.mempool_capacity := int32_of_lt hcap
            have hdepth : (unit t.data_min_size i + header : ℤ) ≤
                int32 t.mempool_capacity := by
              rw [hint]
              exact_mod_cast hfits rfl
            obtain ⟨t₁, s, hcarve, ht₁, hs, hflag, hclear, hmax, hsize⟩ :=
              ht₀.carve List.mem_cons_self hindex hcap hdepth
            obtain ⟨hok, hholds⟩ := Holds.give [(t.fresh, t.mempool_capacity)] ht₁
              (hmax ▸ hi) hs hflag hclear hsize true
            refine ⟨_, _, [(t.fresh, t.mempool_capacity)], ?_, hok, hholds⟩
            simp only [mempool_create] at hcarve
            simp only [if_true, mempool_create, hcarve, Option.bind_eq_bind, Option.bind_some]
            rfl

theorem alloc_huge (ht : Holds c t m) {size : BitVec 32}
    (hhuge : t.slab_get_slab_index size.toNat = some none ∨
      ∃ i, t.slab_get_slab_index size.toNat = some (some i) ∧ t.mempool_capacity < size.toNat) :
    ∃ t' b sys, t.alloc_huge_slab size.toNat true = (t', b, sys) ∧
      (disjoint c).ok m (.alloc size true) (.block b sys) ∧
      Holds c t' ((disjoint c).next m (.alloc size true) (.block b sys)) := by
  let s : CtrSlab := ⟨t.fresh, 0, size.toNat, true⟩
  have hclear : ∀ u ∈ t.slabs, Clear s u := by
    intro u hu
    obtain ⟨r, hr, hregion⟩ := ht.region_mem hu
    have hlt := ht.lt_fresh r hr
    refine .inl ?_
    change t.fresh ≠ u.region
    omega
  have hnew : block s ∉ m.freed := by
    intro hmem
    obtain ⟨u, hu, heq⟩ := ht.block_mem_freed hmem
    apply (hclear u (mem_slabs_of_free hu)).not_at rfl
    rw [heq]
    rfl
  refine ⟨_, some (block s), [(t.fresh, size.toNat + header)], rfl, ⟨⟨le_rfl, ?_⟩, ?_, ?_⟩, ?_⟩
  · refine ⟨_, List.mem_cons_self, rfl, ?_⟩
    change 0 + header + size.toNat ≤ size.toNat + header
    omega
  · intro d hd
    obtain ⟨u, hu, rfl⟩ := ht.block_mem_live hd
    exact (hclear u (mem_slabs_of_used hu)).apart
  · intro d hd
    obtain ⟨u, hu, rfl⟩ := ht.block_mem_freed hd
    exact .inr (hclear u (mem_slabs_of_free hu)).apart
  · have hperm : (t.used_slabs.flatten ++ s :: t.used_huge_slabs).Perm
        (s :: (t.used_slabs.flatten ++ t.used_huge_slabs)) := List.perm_middle
    change Holds c _ ⟨[(t.fresh, size.toNat + header)] ++ m.regions, block s :: m.live,
      m.freed.erase (block s)⟩
    rw [List.erase_of_not_mem hnew]
    refine ⟨?_, ?_, ht.freed_perm, ?_, ?_, ht.waiting, ht.free_normal, ht.used_normal, ?_, ?_, ?_,
      ht.pool_depth, ht.pool_nodup, ?_, ht.length_free, ht.length_used,
    ht.index_eq⟩
    · change _ :: m.regions = _ :: t.regions
      rw [ht.regions_eq]
    · exact (ht.live_perm.cons (block s)).trans (hperm.map block).symm
    · have hall : (t.free_slabs.flatten ++ (t.used_slabs.flatten ++ s :: t.used_huge_slabs)).Perm
          (s :: t.slabs) :=
        (hperm.append_left t.free_slabs.flatten).trans List.perm_middle
      exact (hall.pairwise_iff fun h ↦ h.symm).mpr (List.pairwise_cons.mpr ⟨hclear, ht.clear⟩)
    · intro u hu
      rcases List.mem_cons.mp (hperm.mem_iff.mp hu) with rfl | hu
      · rfl
      · exact ht.in_use u hu
    · intro u hu
      rcases List.mem_cons.mp hu with rfl | hu
      · refine ⟨hhuge, rfl, List.mem_cons_self, ?_⟩
        intro p hp
        exact Nat.ne_of_lt (ht.lt_fresh _ (ht.pool_mem p hp))
      · obtain ⟨hclass, hoff, hregion, hpools⟩ := ht.huge u hu
        exact ⟨hclass, hoff, List.mem_cons_of_mem _ hregion, hpools⟩
    · intro r hr
      rcases List.mem_cons.mp hr with rfl | hr
      · exact Nat.lt_succ_self _
      · exact Nat.lt_succ_of_lt (ht.lt_fresh r hr)
    · exact fun p hp ↦ List.mem_cons_of_mem _ (ht.pool_mem p hp)
    · change t.alloc_count + 1 = ((block s :: m.live).length : ℤ)
      rw [ht.count_eq, List.length_cons]
      push_cast
      rfl

theorem alloc (ht : Holds c t m) {size : BitVec 32} {mallocs : Bool}
    (hreg : Regular t (.alloc size mallocs)) :
    ∃ t' b sys, t.alloc size.toNat mallocs = some (t', b, sys) ∧
      (disjoint c).ok m (.alloc size mallocs) (.block b sys) ∧
      Holds c t' ((disjoint c).next m (.alloc size mallocs) (.block b sys)) := by
  rw [Regular] at hreg
  rw [CtrAlloc.alloc]
  cases hindex : t.slab_get_slab_index size.toNat with
  | none =>
    rw [hindex] at hreg
    exact absurd hreg id
  | some index =>
    cases index with
    | none =>
      simp only [hindex] at hreg
      subst hreg
      obtain ⟨t', b, sys, halloc, hok, ht'⟩ := ht.alloc_huge (.inl hindex)
      exact ⟨t', b, sys, congrArg some halloc, hok, ht'⟩
    | some i =>
      simp only [hindex] at hreg
      by_cases hlarge : t.mempool_capacity < size.toNat
      · rw [if_pos hlarge] at hreg
        subst hreg
        obtain ⟨t', b, sys, halloc, hok, ht'⟩ := ht.alloc_huge (.inr ⟨i, hindex, hlarge⟩)
        exact ⟨t', b, sys, by simp only [if_pos hlarge, halloc], hok, ht'⟩
      · rw [if_neg hlarge] at hreg
        obtain ⟨t', b, sys, halloc, hok, ht'⟩ := ht.alloc_normal hindex hreg.1 hreg.2
        exact ⟨t', b, sys, by simp only [if_neg hlarge, halloc], hok, ht'⟩

theorem listDel (ht : Holds c t m) {s : CtrSlab}
    (hs : s ∈ t.used_slabs.flatten ++ t.used_huge_slabs) :
    (t.used_slabs.flatten ++ t.used_huge_slabs).Perm
        (s :: ((t.listDel s).used_slabs.flatten ++ (t.listDel s).used_huge_slabs)) ∧
      (t.listDel s).slabs.Pairwise Clear ∧ ∀ u ∈ (t.listDel s).slabs, Clear s u := by
  have hclear := ht.clear
  rw [slabs, List.pairwise_append] at hclear
  have hperm := listDel_perm (nodup_of_clear hclear.2.1) hs
  have hall : t.slabs.Perm (s :: (t.listDel s).slabs) :=
    (hperm.append_left t.free_slabs.flatten).trans List.perm_middle
  have hpair := (hall.pairwise_iff fun h ↦ h.symm).mp ht.clear
  rw [List.pairwise_cons] at hpair
  exact ⟨hperm, hpair.2, hpair.1⟩

theorem filter_live (ht : Holds c t m) {s : CtrSlab}
    (hs : s ∈ t.used_slabs.flatten ++ t.used_huge_slabs) {addr : ℕ × ℕ}
    (haddr : (s.region, s.offset + header) = addr) :
    (m.live.filter (fun b ↦ ¬At addr b)).Perm
        (((t.listDel s).used_slabs.flatten ++ (t.listDel s).used_huge_slabs).map block) ∧
      m.live.filter (fun b ↦ At addr b) = [block s] ∧
      (m.live.filter (fun b ↦ ¬At addr b)).length + 1 = m.live.length := by
  obtain ⟨hperm, -, hclear⟩ := ht.listDel hs
  have hself : At addr (block s) := haddr
  have hothers : ∀ b ∈ ((t.listDel s).used_slabs.flatten ++
      (t.listDel s).used_huge_slabs).map block, ¬At addr b := by
    intro b hb
    obtain ⟨u, hu, rfl⟩ := List.mem_map.mp hb
    exact (hclear u (mem_slabs_of_used hu)).not_at haddr
  have hlive : m.live.Perm (block s :: (((t.listDel s).used_slabs.flatten ++
      (t.listDel s).used_huge_slabs).map block)) := ht.live_perm.trans (hperm.map block)
  have hkept : (m.live.filter (fun b ↦ ¬At addr b)).Perm
      (((t.listDel s).used_slabs.flatten ++ (t.listDel s).used_huge_slabs).map block) := by
    have hsame : (((t.listDel s).used_slabs.flatten ++
        (t.listDel s).used_huge_slabs).map block).filter (fun b ↦ ¬At addr b) = _ :=
      List.filter_eq_self.mpr fun b hb ↦ by simpa using hothers b hb
    have h := hlive.filter (fun b ↦ ¬At addr b)
    rw [List.filter_cons_of_neg (by simpa using hself), hsame] at h
    exact h
  have htaken : (m.live.filter (fun b ↦ At addr b)).Perm [block s] := by
    have hnone : (((t.listDel s).used_slabs.flatten ++
        (t.listDel s).used_huge_slabs).map block).filter (fun b ↦ At addr b) = [] :=
      List.filter_eq_nil_iff.mpr fun b hb ↦ by simpa using hothers b hb
    have h := hlive.filter (fun b ↦ At addr b)
    rw [List.filter_cons_of_pos (by simpa using hself), hnone] at h
    exact h
  refine ⟨hkept, List.perm_singleton.mp htaken, ?_⟩
  rw [hkept.length_eq, hlive.length_eq, List.length_cons]

theorem free_normal_slab (ht : Holds c t m) {s : CtrSlab} {i : ℕ}
    (hs : s ∈ t.used_slabs.flatten ++ t.used_huge_slabs) (hnormal : t.Normal i s)
    {addr : ℕ × ℕ} (haddr : (s.region, s.offset + header) = addr) :
    Holds c (t.free_normal_slab s i) ((disjoint c).next m (.free (some addr)) (.freed [])) := by
  obtain ⟨hkept, htaken, hlength⟩ := ht.filter_live hs haddr
  obtain ⟨hperm, hpair, hclear⟩ := ht.listDel hs
  obtain ⟨-, hi, -⟩ := slab_get_slab_index_some hnormal.2.1
  have hfree : (t.free_slabs.modify i ({ s with stat_flag := false } :: ·)).flatten.Perm
      ({ s with stat_flag := false } :: t.free_slabs.flatten) :=
    flatten_modify_cons _ (by rw [ht.length_free]; exact hi)
  have hsub : ∀ u ∈ (t.listDel s).used_slabs.flatten ++ (t.listDel s).used_huge_slabs,
      u ∈ t.used_slabs.flatten ++ t.used_huge_slabs :=
    fun u hu ↦ hperm.mem_iff.mpr (List.mem_cons_of_mem s hu)
  have hnext : (disjoint c).next m (.free (some addr)) (.freed []) =
      ⟨m.regions, m.live.filter (fun b ↦ ¬At addr b), block s :: m.freed⟩ := by
    change Memory.mk _ _ (if ([] : List ℕ) = [] then _ else _) = _
    rw [if_pos rfl, htaken]
    simp
  rw [hnext]
  refine ⟨ht.regions_eq, hkept, ?_, ?_, ?_, ?_, ?_, ?_, ?_, ht.lt_fresh, ht.pool_mem,
    ht.pool_depth, ht.pool_nodup, ?_, ?_, ?_, ht.index_eq⟩
  · exact (ht.freed_perm.cons (block s)).trans (hfree.map block).symm
  · have hall : (t.free_normal_slab s i).slabs.Perm
        ({ s with stat_flag := false } :: (t.listDel s).slabs) := hfree.append_right _
    exact (hall.pairwise_iff fun h ↦ h.symm).mpr (List.pairwise_cons.mpr ⟨hclear, hpair⟩)
  · exact fun u hu ↦ ht.in_use u (hsub u hu)
  · intro u hu
    rcases List.mem_cons.mp (hfree.mem_iff.mp hu) with rfl | hu
    · rfl
    · exact ht.waiting u hu
  · intro j ss hss u hu
    have hget : (t.free_slabs.modify i ({ s with stat_flag := false } :: ·))[j]? = some ss := hss
    rw [List.getElem?_modify] at hget
    obtain ⟨ss', hss', rfl⟩ := Option.map_eq_some_iff.mp hget
    by_cases hj : i = j
    · subst hj
      rw [if_pos rfl] at hu
      rcases List.mem_cons.mp hu with rfl | hu
      · exact hnormal
      · exact ht.free_normal i ss' hss' u hu
    · rw [if_neg hj] at hu
      exact ht.free_normal j ss' hss' u hu
  · exact fun u hu ↦ ht.used_normal u (mem_of_mem_erased hu)
  · intro u hu
    exact ht.huge u (List.mem_of_mem_erase hu)
  · change t.alloc_count - 1 = ((m.live.filter (fun b ↦ ¬At addr b)).length : ℤ)
    rw [ht.count_eq]
    omega
  · change (t.free_slabs.modify i _).length = t.slab_array_max_num
    rw [List.length_modify]
    exact ht.length_free
  · change (t.used_slabs.map _).length = t.slab_array_max_num
    rw [List.length_map]
    exact ht.length_used

theorem free_huge_slab (ht : Holds c t m) {s : CtrSlab} (hs : s ∈ t.used_huge_slabs)
    {addr : ℕ × ℕ} (haddr : (s.region, s.offset + header) = addr) :
    ∃ t', t.free_huge_slab s = some (t', [s.region]) ∧
      (disjoint c).ok m (.free (some addr)) (.freed [s.region]) ∧
      Holds c t' ((disjoint c).next m (.free (some addr)) (.freed [s.region])) := by
  have hs' : s ∈ t.used_slabs.flatten ++ t.used_huge_slabs := List.mem_append_right _ hs
  obtain ⟨hclass, hoff, hregion, hpools⟩ := ht.huge s hs
  obtain ⟨hkept, -, hlength⟩ := ht.filter_live hs' haddr
  obtain ⟨hperm, hpair, hclear⟩ := ht.listDel hs'
  -- nothing else is in the region
  have halone : ∀ u ∈ (t.listDel s).slabs, u.region ≠ s.region := by
    intro u hu hsame
    have hu' : u ∈ t.slabs := by
      rcases List.mem_append.mp hu with hfree | hused
      · exact mem_slabs_of_free hfree
      · exact mem_slabs_of_used (hperm.mem_iff.mpr (List.mem_cons_of_mem s hused))
    rcases ht.slab_cases hu' with ⟨i, -, -, -, p, hp, hstart, -⟩ | ⟨-, -, huoff, -⟩
    · exact hpools p hp (hstart.trans hsame)
    · rcases hclear u hu with h | h | h
      · exact h hsame.symm
      · rw [huoff, header] at h
        omega
      · rw [hoff, header] at h
        omega
  have hkeep : ∀ r ∈ t.regions, r.1 ≠ s.region →
      r ∈ t.regions.filter (fun r ↦ r.1 ≠ s.region) := by
    intro r hr hne
    exact List.mem_filter.mpr ⟨hr, by simpa using hne⟩
  have hsub : ∀ u ∈ (t.listDel s).used_slabs.flatten ++ (t.listDel s).used_huge_slabs,
      u ∈ t.used_slabs.flatten ++ t.used_huge_slabs :=
    fun u hu ↦ hperm.mem_iff.mpr (List.mem_cons_of_mem s hu)
  have hnext : (disjoint c).next m (.free (some addr)) (.freed [s.region]) =
      ⟨t.regions.filter (fun r ↦ r.1 ≠ s.region), m.live.filter (fun b ↦ ¬At addr b), m.freed⟩ := by
    change Memory.mk _ _ (if [s.region] = [] then _ else _) = _
    rw [if_neg (List.cons_ne_nil _ _), ht.regions_eq]
    simp only [List.mem_singleton]
  refine ⟨_, if_pos ⟨hoff, _, hregion, rfl⟩, ?_, ?_⟩
  · intro r hr
    rw [List.mem_singleton] at hr
    subst hr
    rw [ht.regions_eq]
    refine ⟨⟨_, hregion, rfl⟩, ?_⟩
    intro d hd hsame
    refine ⟨addr, rfl, ?_⟩
    rcases List.mem_append.mp hd with hd | hd
    · obtain ⟨u, hu, rfl⟩ := ht.block_mem_live hd
      rcases List.mem_cons.mp (hperm.mem_iff.mp hu) with rfl | hu
      · exact haddr
      · exact absurd hsame (halone u (mem_slabs_of_used hu))
    · obtain ⟨u, hu, rfl⟩ := ht.block_mem_freed hd
      exact absurd hsame (halone u (List.mem_append_left _ hu))
  · rw [hnext]
    refine ⟨rfl, hkept, ht.freed_perm, hpair, fun u hu ↦ ht.in_use u (hsub u hu), ht.waiting,
      ht.free_normal, ?_, ?_, ?_, ?_, ht.pool_depth, ht.pool_nodup, ?_, ht.length_free, ?_,
      ht.index_eq⟩
    · exact fun u hu ↦ ht.used_normal u (mem_of_mem_erased hu)
    · intro u hu
      obtain ⟨huclass, huoff, huregion, hupools⟩ := ht.huge u (List.mem_of_mem_erase hu)
      exact ⟨huclass, huoff,
        hkeep _ huregion (halone u (mem_slabs_of_used (List.mem_append_right _ hu))), hupools⟩
    · exact fun r hr ↦ ht.lt_fresh r (List.mem_of_mem_filter hr)
    · exact fun p hp ↦ hkeep _ (ht.pool_mem p hp) (hpools p hp)
    · change t.alloc_count - 1 = ((m.live.filter (fun b ↦ ¬At addr b)).length : ℤ)
      rw [ht.count_eq]
      omega
    · change (t.used_slabs.map _).length = t.slab_array_max_num
      rw [List.length_map]
      exact ht.length_used

theorem next_waiting (ht : Holds c t m) {s : CtrSlab} (hs : s ∈ t.free_slabs.flatten)
    {addr : ℕ × ℕ} (haddr : (s.region, s.offset + header) = addr) :
    (disjoint c).next m (.free (some addr)) (.freed []) = m := by
  have hclear := ht.clear
  rw [slabs, List.pairwise_append] at hclear
  have hnone : ∀ b ∈ m.live, ¬At addr b := by
    intro b hb
    obtain ⟨u, hu, rfl⟩ := ht.block_mem_live hb
    exact (hclear.2.2 s hs u hu).not_at haddr
  have hlive : m.live.filter (fun b ↦ ¬At addr b) = m.live :=
    List.filter_eq_self.mpr fun b hb ↦ by simpa using hnone b hb
  have htaken : m.live.filter (fun b ↦ At addr b) = [] :=
    List.filter_eq_nil_iff.mpr fun b hb ↦ by simpa using hnone b hb
  change Memory.mk _ _ (if ([] : List ℕ) = [] then _ else _) = _
  rw [if_pos rfl, hlive, htaken]
  simp

theorem free (ht : Holds c t m) {addr : Option (ℕ × ℕ)} (hreg : Regular t (.free addr)) :
    ∃ t' sys, t.free addr = some (t', sys) ∧ (disjoint c).ok m (.free addr) (.freed sys) ∧
      Holds c t' ((disjoint c).next m (.free addr) (.freed sys)) := by
  have hnil : ∀ addr, (disjoint c).ok m (.free addr) (.freed []) := by
    intro addr r hr
    cases hr
  cases addr with
  | none => exact ⟨t, [], rfl, hnil none, ht⟩
  | some addr =>
    rw [CtrAlloc.free]
    cases hfind : t.slabs.find? (fun s ↦ (s.region, s.offset + header) = addr) with
    | none =>
      obtain ⟨s, hs, haddr⟩ := hreg addr rfl
      rw [List.find?_eq_none] at hfind
      exact absurd (by simpa using haddr) (hfind s hs)
    | some s =>
      have hs := List.mem_of_find?_eq_some hfind
      have haddr : (s.region, s.offset + header) = addr := by
        simpa using List.find?_some hfind
      cases hflag : s.stat_flag with
      | false =>
        have hfree : s ∈ t.free_slabs.flatten := by
          rcases List.mem_append.mp hs with h | h
          · exact h
          · rw [ht.in_use s h] at hflag
            cases hflag
        refine ⟨t, [], if_pos hflag, hnil (some addr), ?_⟩
        rw [ht.next_waiting hfree haddr]
        exact ht
      | true =>
        have hused : s ∈ t.used_slabs.flatten ++ t.used_huge_slabs := by
          rcases List.mem_append.mp hs with h | h
          · rw [ht.waiting s h] at hflag
            cases hflag
          · exact h
        simp only [hflag, Bool.true_eq_false, if_false]
        rcases ht.slab_cases hs with ⟨i, hnormal⟩ | ⟨hhuge, hclass, -⟩
        · have hindex := hnormal.2.1
          have hlt := hnormal.2.2.1.1
          simp only [hindex]
          refine ⟨_, [], if_neg (by omega), hnil (some addr), ?_⟩
          exact ht.free_normal_slab hused hnormal haddr
        · obtain ⟨t', hfree, hok, ht'⟩ := ht.free_huge_slab hhuge haddr
          rcases hclass with hindex | ⟨i, hindex, hlt⟩
          · simp only [hindex]
            exact ⟨t', _, hfree, hok, ht'⟩
          · simp only [hindex]
            exact ⟨t', _, (if_pos hlt.le).trans hfree, hok, ht'⟩

theorem call (ht : Holds c t m) {a : Call} (hreg : Regular t a) :
    ∃ t' x, t.call a = some (t', x) ∧ (disjoint c).ok m a x ∧
      Holds c t' ((disjoint c).next m a x) := by
  cases a with
  | alloc size mallocs =>
    obtain ⟨t', b, sys, halloc, hok, ht'⟩ := ht.alloc hreg
    exact ⟨t', .block b sys, by rw [CtrAlloc.call, halloc]; rfl, hok, ht'⟩
  | free addr =>
    obtain ⟨t', sys, hfree, hok, ht'⟩ := ht.free hreg
    exact ⟨t', .freed sys, by rw [CtrAlloc.call, hfree]; rfl, hok, ht'⟩
  | alloc_count => exact ⟨t, .count t.alloc_count, rfl, ht.count_eq, ht⟩

theorem live_apart (ht : Holds c t m) : m.live.Pairwise Block.Apart := by
  have hclear := ht.clear
  rw [slabs, List.pairwise_append] at hclear
  have hblocks : ((t.used_slabs.flatten ++ t.used_huge_slabs).map block).Pairwise Block.Apart := by
    rw [List.pairwise_map]
    exact hclear.2.1.imp Clear.apart
  exact (ht.live_perm.pairwise_iff apart_symm).mpr hblocks

theorem live_inside (ht : Holds c t m) {b : Block} (hb : b ∈ m.live) : b.Inside m.regions := by
  rw [ht.regions_eq]
  obtain ⟨u, hu, rfl⟩ := ht.block_mem_live hb
  rcases ht.slab_cases (mem_slabs_of_used hu) with ⟨i, hnormal⟩ | ⟨-, -, hoff, hregion, -⟩
  · exact ht.inside hnormal
  · refine ⟨_, hregion, rfl, ?_⟩
    change u.offset + header + u.size ≤ u.size + header
    omega

end Holds

/-- The memory before the first call: one pool. -/
def initial (t : CtrAlloc) : Memory := ⟨t.regions, [], []⟩

theorem holds_init (slab_array_max_num data_min_size mempool_capacity : BitVec 32) :
    Holds (init slab_array_max_num data_min_size mempool_capacity).slab_get_slab_index
      (init slab_array_max_num data_min_size mempool_capacity)
      (initial (init slab_array_max_num data_min_size mempool_capacity)) := by
  generalize ht : init slab_array_max_num data_min_size mempool_capacity = t
  rw [init] at ht
  have hfree : t.free_slabs = List.replicate t.slab_array_max_num [] := by subst ht; rfl
  have hused : t.used_slabs = List.replicate t.slab_array_max_num [] := by subst ht; rfl
  have hhuge : t.used_huge_slabs = [] := by subst ht; rfl
  have hcount : t.alloc_count = 0 := by subst ht; rfl
  have hregions : t.regions = [(0, t.mempool_capacity)] := by subst ht; rfl
  have hfresh : t.fresh = 1 := by subst ht; rfl
  have hpools : t.pools = [⟨0, int32 t.mempool_capacity, int32 t.mempool_capacity,
      int32 (t.data_min_size + header)⟩] := by subst ht; rfl
  have hnone : t.free_slabs.flatten = [] := by rw [hfree, List.flatten_replicate_nil]
  have hnone' : t.used_slabs.flatten ++ t.used_huge_slabs = [] := by
    rw [hused, hhuge, List.flatten_replicate_nil, List.append_nil]
  have hnone'' : t.used_slabs.flatten = [] := (List.append_eq_nil_iff.mp hnone').1
  refine ⟨rfl, ?_, ?_, ?_, ?_, ?_, ?_, ?_, ?_, ?_, ?_, ?_, ?_, hcount, ?_, ?_, rfl⟩
  · rw [hnone']
    exact .refl _
  · rw [hnone]
    exact .refl _
  · rw [slabs, hnone, hnone']
    exact .nil
  · rw [hnone']
    simp
  · rw [hnone]
    simp
  · intro i ss hss s hs
    have hmem : s ∈ t.free_slabs.flatten :=
      List.mem_flatten.mpr ⟨ss, List.mem_of_getElem? hss, hs⟩
    rw [hnone] at hmem
    cases hmem
  · rw [hnone'']
    simp
  · rw [hhuge]
    simp
  · rw [hregions, hfresh]
    simp
  · rw [hpools, hregions]
    simp
  · intro hcap p hp
    rw [hpools, List.mem_singleton] at hp
    subst hp
    have hint : int32 t.mempool_capacity = t.mempool_capacity := int32_of_lt hcap
    refine ⟨hint, ?_, hint.le⟩
    change 0 ≤ int32 t.mempool_capacity
    omega
  · rw [hpools]
    exact List.nodup_singleton _
  · rw [hfree, List.length_replicate]
  · rw [hused, List.length_replicate]

/-- In every run in which new pools have room for what is asked of them, each block that is given
out is as it should be; in particular the live ones are disjoint, and counted. -/
theorem refines_disjoint {slab_array_max_num data_min_size mempool_capacity : BitVec 32}
    {t₀ : CtrAlloc} (ht₀ : t₀ = init slab_array_max_num data_min_size mempool_capacity)
    {cs : List Call}
    (hrun : Refine.Within call (disjoint t₀.slab_get_slab_index) Regular t₀ t₀.initial cs) :
    (∃ t m, Run.final (Refine.step call (disjoint t₀.slab_get_slab_index)) (some t₀, t₀.initial)
          cs = (some t, m) ∧
        m.live.Pairwise Block.Apart ∧ (∀ b ∈ m.live, b.Inside m.regions) ∧
        t.alloc_count = m.live.length) ∧
      Refine.Refines call (disjoint t₀.slab_get_slab_index) t₀ t₀.initial cs := by
  subst ht₀
  obtain ⟨⟨t, m, hfinal, ht⟩, hrefines⟩ := Refine.refines_of_simulation (I := Holds _)
    (fun _ _ a ht hreg ↦ ht.call hreg)
    (holds_init slab_array_max_num data_min_size mempool_capacity) hrun
  exact ⟨⟨t, m, hfinal, ht.live_apart, fun _ hb ↦ ht.live_inside hb, ht.count_eq⟩, hrefines⟩

instance decidableApart (b d : Block) : Decidable (b.Apart d) :=
  inferInstanceAs (Decidable (_ ∨ _ ∨ _))

instance decidableInside (b : Block) (regions : List (ℕ × ℕ)) : Decidable (b.Inside regions) :=
  inferInstanceAs (Decidable (∃ r ∈ regions, _))

instance decidableRegular (t : CtrAlloc) (a : Call) : Decidable (Regular t a) := by
  cases a with
  | alloc size mallocs =>
    rw [Regular]
    cases t.slab_get_slab_index size.toNat with
    | none => exact inferInstanceAs (Decidable False)
    | some index => cases index <;> infer_instance
  | free addr => exact inferInstanceAs (Decidable (∀ a ∈ addr, ∃ s ∈ t.slabs, _))
  | alloc_count => exact inferInstanceAs (Decidable True)

instance decidableOk (sizeClass : ℕ → Option (Option ℕ)) (m : Memory) (a : Call) (x : Answer) :
    Decidable ((disjoint sizeClass).ok m a x) := by
  cases a with
  | alloc size mallocs =>
    cases x with
    | block b sys =>
      cases b with
      | none => exact inferInstanceAs (Decidable (sys = []))
      | some b => exact inferInstanceAs (Decidable (_ ∧ (∀ d ∈ m.live, _) ∧ ∀ d ∈ m.freed, _))
    | freed sys => exact inferInstanceAs (Decidable False)
    | count n => exact inferInstanceAs (Decidable False)
  | free addr =>
    cases x with
    | freed sys => exact inferInstanceAs (Decidable (∀ r ∈ sys, _ ∧ _))
    | block b sys => exact inferInstanceAs (Decidable False)
    | count n => exact inferInstanceAs (Decidable False)
  | alloc_count =>
    cases x with
    | count n => exact inferInstanceAs (Decidable (n = _))
    | block b sys => exact inferInstanceAs (Decidable False)
    | freed sys => exact inferInstanceAs (Decidable False)

theorem refines_disjoint_default :
    (∃ t m, Run.final (Refine.step call (disjoint (init 0 0 0).slab_get_slab_index))
          (some (init 0 0 0), (init 0 0 0).initial)
          [.alloc 7 true, .alloc 9 true, .free (some (0, 80)), .alloc 8 true, .alloc 20000 true,
            .alloc 16000 true, .alloc 16000 true, .free (some (1, 80)), .free none, .alloc_count] =
          (some t, m) ∧
        m.live.Pairwise Block.Apart ∧ (∀ b ∈ m.live, b.Inside m.regions) ∧
        t.alloc_count = m.live.length) ∧
      Refine.Refines call (disjoint (init 0 0 0).slab_get_slab_index) (init 0 0 0)
        (init 0 0 0).initial
        [.alloc 7 true, .alloc 9 true, .free (some (0, 80)), .alloc 8 true, .alloc 20000 true,
          .alloc 16000 true, .alloc 16000 true, .free (some (1, 80)), .free none, .alloc_count] :=
  refines_disjoint rfl (by decide)

/-- A new pool is not asked whether a header and the rounded size fit. -/
theorem not_refines_disjoint_small_pool :
    ¬ ∀ (slab_array_max_num data_min_size mempool_capacity : BitVec 32) (cs : List Call),
      Refine.Refines call
        (disjoint (init slab_array_max_num data_min_size mempool_capacity).slab_get_slab_index)
        (init slab_array_max_num data_min_size mempool_capacity)
        (init slab_array_max_num data_min_size mempool_capacity).initial cs := by
  intro h
  have hrun := h 0 0 1024 [.alloc 1000 true]
  revert hrun
  decide

end CtrAlloc

end Libobject
