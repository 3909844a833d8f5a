import Libobject.Lib.Refine
import Mathlib.Algebra.Group.Int.Defs
import Mathlib.Data.Int.Notation
import Mathlib.Data.List.Count
import Mathlib.Data.List.Nodup

/-!
# The pool of stubs

A stub comes with an execution area, which is cut out of a placeholder. A stub that was freed is
handed out again before a new one is made; a placeholder whose rest is too small for an area is
released. Placeholders are code, of which one page is made writable when a stub is handed out.
-/

namespace Libobject.Stub

/-- `sizeof(stub_exec_area_t)`: 60 bytes of code and, aligned, the address of the stub. -/
def areaSize : ℕ := 72

/-- `placeholder_t`, whose memory is the one that was given as number `addr`. -/
structure Placeholder where
  addr : ℕ
  size : ℕ
  index : ℕ
  deriving DecidableEq

/-- The size of a page, and where the pieces of code start. -/
structure Pages (ι : Type) where
  pagesize : ℕ
  start : ι → ℕ

/-- The `len` bytes behind the first `index` ones of a piece are on one page. -/
def Pages.OnOne {ι : Type} (m : Pages ι) (i : ι) (index len : ℕ) : Prop :=
  (m.start i + index) % m.pagesize + len ≤ m.pagesize

instance {ι : Type} (m : Pages ι) (i : ι) (index len : ℕ) : Decidable (m.OnOne i index len) :=
  inferInstanceAs (Decidable (_ ≤ _))

/-- Where an execution area starts. -/
structure Area where
  addr : ℕ
  index : ℕ
  deriving DecidableEq

/-- The admin and what it has allocated: the records of the placeholders, of which one that was
released is gone, and the areas of the stubs. -/
structure Admin where
  holders : List (Option Placeholder)
  placeholder_list : List ℕ
  free_stub_list : List ℕ
  cur : Option ℕ
  areas : List Area
  deriving DecidableEq

/-- `mprotect` tells whether the new stub's area can be made writable. -/
inductive Request
  | add_placeholder (size : ℕ)
  | alloc (mprotect : Bool)
  | free (stub : Option ℕ)

inductive Reply
  | code (ret : ℤ)
  | stub (stub : Option (ℕ × Area))
  deriving DecidableEq

/-- Whether the stub can be written to the last bytes of its area, `none` if they are not on the
page that was made writable. -/
def stub_config_exec_area (m : Pages ℕ) (area : Area) (mprotect : Bool) : Option Bool :=
  if mprotect then if m.OnOne area.addr area.index areaSize then some true else none
  else some false

namespace Admin

def new : Admin := ⟨[], [], [], none, []⟩

/-- The record of a placeholder, unless it was released. -/
def holder (admin : Admin) (p : ℕ) : Option Placeholder := admin.holders[p]?.join

/-- What is left of a placeholder, as it is compared with an area's size. -/
def rest (cur : Placeholder) : ℤ := ((cur.size : ℤ) - cur.index) % 2 ^ 64

def add_placeholder (admin : Admin) (size : ℕ) : Admin :=
  { admin with
    holders := admin.holders ++ [some ⟨admin.holders.length, size, 0⟩]
    placeholder_list := admin.placeholder_list ++ [admin.holders.length] }

variable (m : Pages ℕ)

/-- A new stub with the area at the index of the placeholder `p`. -/
def take (admin : Admin) (p : ℕ) (mprotect : Bool) : Option (Admin × Reply) := do
  let cur ← admin.holder p
  let area : Area := ⟨cur.addr, cur.index⟩
  let taken := { admin with
    cur := some p
    holders := admin.holders.set p (some { cur with index := cur.index + areaSize })
    areas := admin.areas ++ [area] }
  let configured ← stub_config_exec_area m area mprotect
  return (taken, .stub (if configured then some (admin.areas.length, area) else none))

def alloc (admin : Admin) (mprotect : Bool) : Option (Admin × Reply) :=
  match admin.free_stub_list with
  | stub :: free_stub_list => do
    let area ← admin.areas[stub]?
    let configured ← stub_config_exec_area m area mprotect
    return ({ admin with free_stub_list }, .stub (if configured then some (stub, area) else none))
  | [] =>
    match admin.cur with
    | none =>
      match admin.placeholder_list with
      | [] => return (admin, .stub none)
      | p :: placeholder_list => { admin with placeholder_list }.take m p mprotect
    | some p => do
      let cur ← admin.holder p
      if rest cur < areaSize then
        -- the next one is looked for in the list of the free stubs, which is empty
        return ({ admin with holders := admin.holders.set p none }, .stub none)
      else admin.take m p mprotect

def free (admin : Admin) : Option ℕ → Admin × Reply
  | none => (admin, .code (-1))
  | some stub => ({ admin with free_stub_list := admin.free_stub_list ++ [stub] }, .code 1)

/-- `none` once a record is used that was released, or a page is written that is only code. -/
def call (admin : Admin) : Request → Option (Admin × Reply)
  | .add_placeholder size => some (admin.add_placeholder size, .code 1)
  | .alloc mprotect => admin.alloc m mprotect
  | .free stub => some (admin.free stub)

/-- The placeholder that the next area is taken from. -/
def next (admin : Admin) : Option ℕ := admin.cur <|> admin.placeholder_list.head?

/-- It has room for an area, which will be on one page. -/
def HasRoom (admin : Admin) (p : ℕ) : Prop :=
  ∀ cur ∈ admin.holder p, areaSize ≤ rest cur ∧ m.OnOne cur.addr cur.index areaSize

/-- A live stub is freed, and a new one finds room where it is looked for. -/
def Roomy (admin : Admin) : Request → Prop
  | .add_placeholder _ => True
  | .alloc mprotect =>
    mprotect = true ∧ (admin.free_stub_list = [] → ∀ p ∈ admin.next, admin.HasRoom m p)
  | .free stub => ∀ s ∈ stub, s < admin.areas.length ∧ s ∉ admin.free_stub_list

instance decidableHasRoom (admin : Admin) (p : ℕ) : Decidable (admin.HasRoom m p) :=
  inferInstanceAs (Decidable (∀ cur ∈ admin.holder p, _ ∧ _))

instance decidableRoomy (admin : Admin) : (e : Request) → Decidable (admin.Roomy m e)
  | .add_placeholder _ => inferInstanceAs (Decidable True)
  | .alloc mprotect =>
    inferInstanceAs (Decidable (mprotect = true ∧ (admin.free_stub_list = [] → _)))
  | .free stub => inferInstanceAs (Decidable (∀ s ∈ stub, _ ∧ _))

end Admin

/-- What the pool is for: the rooms it was given, the areas of all stubs it has handed out, and the
stubs that were not freed since. -/
structure Pool where
  sizes : List ℕ
  areas : List Area
  live : List ℕ
  deriving DecidableEq

namespace Pool

def new : Pool := ⟨[], [], []⟩

/-- How many areas lie in a placeholder. -/
def count (a : Pool) (p : ℕ) : ℕ := a.areas.countP fun b ↦ b.addr = p

/-- Two areas do not overlap. -/
def Apart (b c : Area) : Prop :=
  b.addr ≠ c.addr ∨ b.index + areaSize ≤ c.index ∨ c.index + areaSize ≤ b.index

/-- An area lies entirely inside of one placeholder. -/
def Inside (a : Pool) (b : Area) : Prop := ∃ size ∈ a.sizes[b.addr]?, b.index + areaSize ≤ size

/-- There is no free stub, and no placeholder has room for another area. -/
def UsedUp (a : Pool) : Prop :=
  (∀ s < a.areas.length, s ∈ a.live) ∧
    ∀ p < a.sizes.length, ∀ size ∈ a.sizes[p]?, size < areaSize * (a.count p + 1)

/-- A stub that is not live is handed out with the area it had, or a new one with an area of its
own; and none only if there is no room. -/
def ok (a : Pool) : Request → Reply → Prop
  | .add_placeholder _, r => r = .code 1
  | .alloc _, .stub (some (s, b)) =>
    s ∉ a.live ∧ (a.areas[s]? = some b ∨
      (s = a.areas.length ∧ a.Inside b ∧ ∀ c ∈ a.areas, Apart b c))
  | .alloc _, .stub none => a.UsedUp
  | .alloc _, .code _ => False
  | .free none, r => r = .code (-1)
  | .free (some _), r => r = .code 1

def after (a : Pool) : Request → Reply → Pool
  | .add_placeholder size, _ => { a with sizes := a.sizes ++ [size] }
  | .alloc _, .stub (some (s, b)) =>
    { a with
      areas := if s < a.areas.length then a.areas else a.areas ++ [b]
      live := s :: a.live }
  | .free (some s), _ => { a with live := a.live.filter (· ≠ s) }
  | _, _ => a

def spec : Spec Pool Request Reply := ⟨ok, after⟩

/-- All areas that were handed out lie inside of placeholders and do not overlap. -/
def Sound (a : Pool) : Prop := (∀ b ∈ a.areas, a.Inside b) ∧ a.areas.Pairwise Apart

theorem Inside.append {a : Pool} {b : Area} (h : a.Inside b) (size : ℕ) :
    Inside { a with sizes := a.sizes ++ [size] } b := by
  obtain ⟨old, hold, hfits⟩ := h
  refine ⟨old, ?_, hfits⟩
  obtain ⟨hlt, -⟩ := List.getElem?_eq_some_iff.mp hold
  exact (List.getElem?_append_left hlt).trans hold

theorem Sound.after {a : Pool} (h : a.Sound) {e : Request} {r : Reply} (hok : a.ok e r) :
    (a.after e r).Sound := by
  obtain ⟨hinside, hapart⟩ := h
  cases e with
  | add_placeholder size => exact ⟨fun b hb ↦ (hinside b hb).append size, hapart⟩
  | free stub => cases stub <;> exact ⟨hinside, hapart⟩
  | alloc mprotect =>
    rcases r with ret | _ | ⟨s, b⟩
    · exact absurd hok id
    · exact ⟨hinside, hapart⟩
    · obtain ⟨-, hold | ⟨hnew, hin, hown⟩⟩ := hok
      · obtain ⟨hlt, -⟩ := List.getElem?_eq_some_iff.mp hold
        rw [Pool.after, if_pos hlt]
        exact ⟨hinside, hapart⟩
      · rw [Pool.after, if_neg (hnew ▸ Nat.lt_irrefl _)]
        refine ⟨?_, List.pairwise_append.mpr ⟨hapart, List.pairwise_singleton _ _, ?_⟩⟩
        · intro c hc
          rcases List.mem_append.mp hc with hc | hc
          · exact hinside c hc
          · exact List.mem_singleton.mp hc ▸ hin
        · intro c hc d hd
          obtain rfl := List.mem_singleton.mp hd
          exact (hown c hc).imp Ne.symm Or.symm

end Pool

/-- The admin's records are those of the rooms, each with its index behind the areas in it, its free
stubs are those that are not live, and every area is on one page. -/
structure Shares (m : Pages ℕ) (c : Admin) (a : Pool) : Prop where
  length : c.holders.length = a.sizes.length
  holder : ∀ {p size : ℕ}, a.sizes[p]? = some size →
    c.holder p = some ⟨p, size, areaSize * a.count p⟩ ∧ areaSize * a.count p ≤ size
  listed : ∀ p ∈ c.placeholder_list, p < a.sizes.length
  current : ∀ p ∈ c.cur, p < a.sizes.length
  known : ∀ p < a.sizes.length, p ∈ c.placeholder_list ∨ c.cur = some p
  areas : c.areas = a.areas
  below : ∀ b ∈ a.areas, b.addr < a.sizes.length ∧ b.index + areaSize ≤ areaSize * a.count b.addr
  live : ∀ s, s ∈ a.live ↔ s < a.areas.length ∧ s ∉ c.free_stub_list
  freed : ∀ s ∈ c.free_stub_list, s < a.areas.length
  once : c.free_stub_list.Nodup
  on_one : ∀ b ∈ a.areas, m.OnOne b.addr b.index areaSize

section Simulation

variable {m : Pages ℕ} {c : Admin} {a : Pool}

/-- The call is defined and answered as allowed, and the admin goes on with the pool. -/
def Serves (m : Pages ℕ) (c : Admin) (a : Pool) (e : Request) : Prop :=
  ∃ c' r, c.call m e = some (c', r) ∧ a.ok e r ∧ Shares m c' (a.after e r)

theorem shares_new : Shares m .new .new where
  length := rfl
  holder h := by simp [Pool.new] at h
  listed p h := by simp [Admin.new] at h
  current p h := by simp [Admin.new] at h
  known p h := by simp [Pool.new] at h
  areas := rfl
  below b h := by simp [Pool.new] at h
  live s := by simp [Pool.new]
  freed s h := by simp [Admin.new] at h
  once := List.nodup_nil
  on_one b h := by simp [Pool.new] at h

theorem Shares.count_eq_zero (h : Shares m c a) : a.count a.sizes.length = 0 := by
  rw [Pool.count, List.countP_eq_zero]
  intro b hb
  have hlt := (h.below b hb).1
  simp only [decide_eq_true_eq]
  omega

theorem Shares.add_placeholder (h : Shares m c a) (size : ℕ) :
    Serves m c a (.add_placeholder size) := by
  have hlen : (a.sizes ++ [size]).length = a.sizes.length + 1 := List.length_append
  refine ⟨_, _, rfl, rfl, ?_⟩
  constructor
  · simp [Admin.add_placeholder, Pool.after, h.length]
  · intro p size' hp
    change (a.sizes ++ [size])[p]? = some size' at hp
    change (c.add_placeholder size).holder p = some ⟨p, size', areaSize * a.count p⟩ ∧
      areaSize * a.count p ≤ size'
    obtain hlt | hge := Nat.lt_or_ge p a.sizes.length
    · rw [List.getElem?_append_left hlt] at hp
      obtain ⟨hholder, hfits⟩ := h.holder hp
      refine ⟨?_, hfits⟩
      rw [← hholder, Admin.holder, Admin.add_placeholder,
        List.getElem?_append_left (h.length ▸ hlt)]
      rfl
    · obtain ⟨hlt, -⟩ := List.getElem?_eq_some_iff.mp hp
      obtain rfl : p = a.sizes.length := by omega
      rw [List.getElem?_concat_length, Option.some.injEq] at hp
      rw [h.count_eq_zero, Admin.holder, Admin.add_placeholder, ← h.length,
        List.getElem?_concat_length, ← hp]
      exact ⟨rfl, Nat.zero_le _⟩
  · intro p hp
    change p < (a.sizes ++ [size]).length
    rcases List.mem_append.mp hp with hp | hp
    · exact hlen ▸ Nat.lt_succ_of_lt (h.listed p hp)
    · rw [List.mem_singleton.mp hp, h.length, hlen]
      exact Nat.lt_succ_self _
  · intro p hp
    change p < (a.sizes ++ [size]).length
    exact hlen ▸ Nat.lt_succ_of_lt (h.current p hp)
  · intro p hp
    change p < (a.sizes ++ [size]).length at hp
    rw [hlen] at hp
    obtain hlt | rfl := Nat.lt_succ_iff_lt_or_eq.mp hp
    · exact (h.known p hlt).imp_left (List.mem_append_left _)
    · left
      apply List.mem_append_right
      rw [h.length]
      exact List.mem_singleton_self _
  · exact h.areas
  · intro b hb
    obtain ⟨hlt, hbelow⟩ := h.below b hb
    exact ⟨hlen ▸ Nat.lt_succ_of_lt hlt, hbelow⟩
  · exact h.live
  · exact h.freed
  · exact h.once
  · exact h.on_one

theorem Shares.free (h : Shares m c a) {stub : Option ℕ} (hroomy : c.Roomy m (.free stub)) :
    Serves m c a (.free stub) := by
  cases stub with
  | none => exact ⟨c, .code (-1), rfl, rfl, h⟩
  | some s =>
    obtain ⟨hs, hlive⟩ := hroomy s rfl
    refine ⟨_, _, rfl, rfl, ⟨h.length, h.holder, h.listed, h.current, h.known, h.areas, h.below,
      ?_, ?_, ?_, h.on_one⟩⟩
    · intro t
      change t ∈ a.live.filter (· ≠ s) ↔ t < a.areas.length ∧ t ∉ c.free_stub_list ++ [s]
      rw [List.mem_filter, h.live, List.mem_append, List.mem_singleton]
      simp only [decide_eq_true_eq, not_or, and_assoc]
    · intro t ht
      rcases List.mem_append.mp ht with ht | ht
      · exact h.freed t ht
      · obtain rfl := List.mem_singleton.mp ht
        exact h.areas ▸ hs
    · refine List.nodup_append.mpr ⟨h.once, List.nodup_singleton s, ?_⟩
      rintro t ht u hu rfl
      exact hlive (List.mem_singleton.mp hu ▸ ht)

theorem Shares.again (h : Shares m c a) {stub : ℕ} {rest : List ℕ}
    (hfree : c.free_stub_list = stub :: rest) : Serves m c a (.alloc true) := by
  have hmem : stub ∈ c.free_stub_list := hfree ▸ List.mem_cons_self
  have hlt := h.freed stub hmem
  have hcall : c.call m (.alloc true) = some ({ c with free_stub_list := rest },
      .stub (some (stub, a.areas[stub]))) := by
    have harea : c.areas[stub]? = some a.areas[stub] := by
      rw [h.areas, List.getElem?_eq_getElem hlt]
    have hpage := h.on_one _ (List.getElem_mem hlt)
    rw [Admin.call, Admin.alloc, hfree]
    simp only [harea, stub_config_exec_area, if_pos hpage, if_true, Option.bind_eq_bind,
      Option.bind_some]
    rfl
  refine ⟨_, _, hcall, ⟨?_, .inl (List.getElem?_eq_getElem hlt)⟩, ?_⟩
  · exact fun hlive ↦ ((h.live stub).mp hlive).2 hmem
  · have hafter : a.after (.alloc true) (.stub (some (stub, a.areas[stub]))) =
        { a with live := stub :: a.live } := by
      rw [Pool.after, if_pos hlt]
    rw [hafter]
    have honce := List.nodup_cons.mp (hfree ▸ h.once)
    refine ⟨h.length, h.holder, h.listed, h.current, h.known, h.areas, h.below, ?_, ?_, honce.2,
      h.on_one⟩
    · intro t
      change t ∈ stub :: a.live ↔ t < a.areas.length ∧ t ∉ rest
      rw [List.mem_cons, h.live, hfree, List.mem_cons]
      constructor
      · rintro (rfl | ⟨ht, hnot⟩)
        · exact ⟨hlt, honce.1⟩
        · exact ⟨ht, fun hrest ↦ hnot (.inr hrest)⟩
      · rintro ⟨ht, hnot⟩
        by_cases heq : t = stub
        · exact .inl heq
        · exact .inr ⟨ht, fun hor ↦ hor.elim heq hnot⟩
    · intro t ht
      exact h.freed t (hfree ▸ List.mem_cons_of_mem stub ht)

theorem Shares.take (h : Shares m c a) (hfree : c.free_stub_list = []) {p size : ℕ}
    (hp : a.sizes[p]? = some size) (hroom : areaSize * a.count p + areaSize ≤ size)
    (hpage : m.OnOne p (areaSize * a.count p) areaSize)
    {list : List ℕ} (hlist : ∀ q ∈ list, q ∈ c.placeholder_list)
    (hknown : ∀ q < a.sizes.length, q ∈ list ∨ p = q) :
    ∃ c' r, Admin.take m { c with placeholder_list := list } p true = some (c', r) ∧
      a.ok (.alloc true) r ∧ Shares m c' (a.after (.alloc true) r) := by
  have hlt : p < a.sizes.length := (List.getElem?_eq_some_iff.mp hp).1
  have hlt' : p < c.holders.length := h.length ▸ hlt
  have hholder : c.holder p = some ⟨p, size, areaSize * a.count p⟩ := (h.holder hp).1
  let b : Area := ⟨p, areaSize * a.count p⟩
  have hcount (q : ℕ) : Pool.count ⟨a.sizes, a.areas ++ [b], c.areas.length :: a.live⟩ q =
      a.count q + if p = q then 1 else 0 := by
    simp only [Pool.count, List.countP_append, List.countP_singleton, decide_eq_true_eq, b]
  have hafter : a.after (.alloc true) (.stub (some (c.areas.length, b))) =
      { a with areas := a.areas ++ [b], live := c.areas.length :: a.live } := by
    rw [Pool.after, if_neg (h.areas ▸ Nat.lt_irrefl _)]
  have hcall : Admin.take m { c with placeholder_list := list } p true = some (⟨c.holders.set p
      (some ⟨p, size, areaSize * a.count p + areaSize⟩), list, c.free_stub_list, some p,
      c.areas ++ [b]⟩, .stub (some (c.areas.length, b))) := by
    have hsame : Admin.holder { c with placeholder_list := list } p = c.holder p := rfl
    rw [Admin.take, hsame, hholder]
    simp only [stub_config_exec_area, if_pos hpage, if_true, Option.bind_eq_bind, Option.bind_some]
    rfl
  refine ⟨_, _, hcall, ⟨?_, .inr ⟨h.areas ▸ rfl, ⟨size, hp, hroom⟩, ?_⟩⟩, ?_⟩
  · rw [h.live, h.areas]
    exact fun hlive ↦ Nat.lt_irrefl _ hlive.1
  · intro d hd
    by_cases heq : p = d.addr
    · right
      right
      change d.index + areaSize ≤ areaSize * a.count p
      exact heq ▸ (h.below d hd).2
    · exact .inl heq
  · rw [hafter]
    constructor
    · rw [List.length_set, h.length]
    · intro q size' hq
      change a.sizes[q]? = some size' at hq
      rw [hcount]
      by_cases heq : p = q
      · subst heq
        obtain rfl := Option.some.inj (hp.symm.trans hq)
        rw [if_pos rfl, Admin.holder, List.getElem?_set_self hlt', Nat.mul_add, Nat.mul_one]
        exact ⟨rfl, hroom⟩
      · rw [if_neg heq, Nat.add_zero, Admin.holder, List.getElem?_set_ne heq]
        exact h.holder hq
    · exact fun q hq ↦ h.listed q (hlist q hq)
    · intro q hq
      exact Option.some.inj hq ▸ hlt
    · intro q hq
      exact (hknown q hq).imp_right (congrArg some)
    · exact congrArg (· ++ [b]) h.areas
    · intro d hd
      rw [hcount]
      rcases List.mem_append.mp hd with hd | hd
      · obtain ⟨haddr, hbelow⟩ := h.below d hd
        exact ⟨haddr, Nat.le_trans hbelow (Nat.mul_le_mul_left _ (Nat.le_add_right _ _))⟩
      · obtain rfl := List.mem_singleton.mp hd
        rw [if_pos rfl, Nat.mul_add, Nat.mul_one]
        exact ⟨hlt, Nat.le_refl _⟩
    · intro t
      have hlength : (a.areas ++ [b]).length = a.areas.length + 1 := List.length_append
      change t ∈ c.areas.length :: a.live ↔ t < (a.areas ++ [b]).length ∧ t ∉ c.free_stub_list
      rw [List.mem_cons, h.live, hfree, h.areas, hlength, Nat.lt_succ_iff_lt_or_eq]
      simp only [List.not_mem_nil, not_false_eq_true, and_true]
      exact or_comm
    · intro t ht
      rw [hfree] at ht
      exact absurd ht List.not_mem_nil
    · exact h.once
    · intro d hd
      rcases List.mem_append.mp hd with hd | hd
      · exact h.on_one d hd
      · exact List.mem_singleton.mp hd ▸ hpage

theorem Shares.next (h : Shares m c a) {p : ℕ} (hp : p ∈ c.next) (hroom : c.HasRoom m p) :
    ∃ size, a.sizes[p]? = some size ∧ c.holder p = some ⟨p, size, areaSize * a.count p⟩ ∧
      areaSize ≤ Admin.rest ⟨p, size, areaSize * a.count p⟩ ∧
      areaSize * a.count p + areaSize ≤ size ∧ m.OnOne p (areaSize * a.count p) areaSize := by
  have hlt : p < a.sizes.length := by
    rw [Admin.next] at hp
    cases hcur : c.cur with
    | none =>
      rw [hcur] at hp
      exact h.listed p (List.mem_of_head? hp)
    | some q =>
      rw [hcur] at hp
      exact h.current p (hcur.trans hp)
  obtain ⟨hholder, hfits⟩ := h.holder (List.getElem?_eq_getElem hlt)
  obtain ⟨hrest, hpage⟩ := hroom _ hholder
  refine ⟨_, List.getElem?_eq_getElem hlt, hholder, hrest, ?_, hpage⟩
  simp only [Admin.rest] at hrest
  generalize areaSize * a.count p = index at hrest hfits ⊢
  omega

theorem Shares.alloc (h : Shares m c a) {mprotect : Bool} (hroomy : c.Roomy m (.alloc mprotect)) :
    Serves m c a (.alloc mprotect) := by
  obtain ⟨rfl, hroom⟩ := hroomy
  cases hfree : c.free_stub_list with
  | cons stub rest => exact h.again hfree
  | nil =>
    have hroom := hroom hfree
    unfold Serves
    cases hcur : c.cur with
    | none =>
      cases hlist : c.placeholder_list with
      | nil =>
        have hnone : a.sizes = [] := by
          by_contra hne
          have hpos : 0 < a.sizes.length := List.length_pos_iff.mpr hne
          rcases h.known 0 hpos with hmem | hmem
          · rw [hlist] at hmem
            exact absurd hmem List.not_mem_nil
          · rw [hcur] at hmem
            exact nomatch hmem
        have hcall : c.call m (.alloc true) = some (c, .stub none) := by
          rw [Admin.call, Admin.alloc, hfree, hcur, hlist]
          rfl
        refine ⟨_, _, hcall, ⟨?_, ?_⟩, h⟩
        · intro s hs
          rw [h.live, hfree]
          exact ⟨hs, List.not_mem_nil⟩
        · intro p hp
          rw [hnone] at hp
          exact absurd hp (Nat.not_lt_zero p)
      | cons p list =>
        have hp : p ∈ c.next := by
          rw [Admin.next, hcur, hlist]
          rfl
        obtain ⟨size, hp, -, -, hfits, hpage⟩ := h.next hp (hroom p hp)
        have hcall : c.call m (.alloc true) =
            Admin.take m { c with placeholder_list := list } p true := by
          rw [Admin.call, Admin.alloc, hfree, hcur, hlist]
        rw [hcall]
        refine h.take hfree hp hfits hpage ?_ ?_
        · intro q hq
          exact hlist ▸ List.mem_cons_of_mem p hq
        · intro q hq
          rcases h.known q hq with hmem | hmem
          · rw [hlist] at hmem
            exact (List.mem_cons.mp hmem).symm.imp_right Eq.symm
          · rw [hcur] at hmem
            exact nomatch hmem
    | some p =>
      have hp : p ∈ c.next := by
        rw [Admin.next, hcur]
        rfl
      obtain ⟨size, hp, hholder, hrest, hfits, hpage⟩ := h.next hp (hroom p hp)
      have hcall : c.call m (.alloc true) =
          Admin.take m { c with placeholder_list := c.placeholder_list } p true := by
        rw [Admin.call, Admin.alloc, hfree, hcur]
        simp only [hholder, Option.bind_eq_bind, Option.bind_some]
        exact if_neg (Int.not_lt.mpr hrest)
      rw [hcall]
      refine h.take hfree hp hfits hpage (fun q hq ↦ hq) ?_
      intro q hq
      exact (h.known q hq).imp_right fun hmem ↦ Option.some.inj (hcur.symm.trans hmem)

end Simulation

namespace Pool

instance decidableApart (b c : Area) : Decidable (Apart b c) :=
  inferInstanceAs (Decidable (_ ∨ _ ∨ _))

instance decidableInside (a : Pool) (b : Area) : Decidable (a.Inside b) :=
  inferInstanceAs (Decidable (∃ size ∈ a.sizes[b.addr]?, b.index + areaSize ≤ size))

instance decidableUsedUp (a : Pool) : Decidable a.UsedUp :=
  inferInstanceAs (Decidable ((∀ s < a.areas.length, s ∈ a.live) ∧
    ∀ p < a.sizes.length, ∀ size ∈ a.sizes[p]?, size < areaSize * (a.count p + 1)))

instance decidableOk (a : Pool) : (e : Request) → (r : Reply) → Decidable (spec.ok a e r)
  | .add_placeholder _, r => inferInstanceAs (Decidable (r = _))
  | .alloc _, .stub (some (s, b)) => inferInstanceAs (Decidable (s ∉ a.live ∧
      (a.areas[s]? = some b ∨ (s = a.areas.length ∧ a.Inside b ∧ ∀ c ∈ a.areas, Apart b c))))
  | .alloc _, .stub none => inferInstanceAs (Decidable a.UsedUp)
  | .alloc _, .code _ => inferInstanceAs (Decidable False)
  | .free none, r => inferInstanceAs (Decidable (r = _))
  | .free (some _), r => inferInstanceAs (Decidable (r = _))

end Pool

/-- On every run on which live stubs are freed and a new stub finds room on one page where it is
looked for, every stub has an area of its own inside of a placeholder, no live stub is handed out,
none is refused before the room is used up, and no record is used that was released. -/
theorem pool_refines (m : Pages ℕ) {es : List Request}
    (hrun : Refine.Within (Admin.call m) Pool.spec (Admin.Roomy m) .new .new es) :
    Refine.Refines (Admin.call m) Pool.spec .new .new es ∧
      (Run.final (Refine.step (Admin.call m) Pool.spec) (some .new, .new) es).2.Sound := by
  have hnew : Shares m .new .new ∧ Pool.new.Sound :=
    ⟨shares_new, fun _ hb ↦ absurd hb List.not_mem_nil, List.Pairwise.nil⟩
  have hsim (c : Admin) (a : Pool) (e : Request) (h : Shares m c a ∧ a.Sound)
      (hroomy : c.Roomy m e) :
      ∃ c' r, c.call m e = some (c', r) ∧ a.ok e r ∧ Shares m c' (a.after e r) ∧
        (a.after e r).Sound := by
    obtain ⟨h, hsound⟩ := h
    have hserves : Serves m c a e := by
      cases e with
      | add_placeholder size => exact h.add_placeholder size
      | alloc mprotect => exact h.alloc hroomy
      | free stub => exact h.free hroomy
    obtain ⟨c', r, hcall, hok, h'⟩ := hserves
    exact ⟨c', r, hcall, hok, h', hsound.after hok⟩
  obtain ⟨⟨c, a, hfinal, -, hsound⟩, hrefines⟩ :=
    Refine.refines_of_simulation (I := fun c a ↦ Shares m c a ∧ a.Sound) hsim hnew hrun
  rw [hfinal]
  exact ⟨hrefines, hsound⟩

/-- The second placeholder starts 100 bytes before the end of a page. -/
def samplePages : Pages ℕ := ⟨4096, fun p ↦ if p = 1 then 8092 else 4096⟩

/-- A refused call, two areas in a placeholder, one of them used again. -/
theorem pool_refines_few : Refine.Refines (Admin.call samplePages) Pool.spec .new .new
    [.alloc true, .add_placeholder 150, .add_placeholder 10, .alloc true, .alloc true,
      .free none, .free (some 0), .alloc true] :=
  (pool_refines samplePages (by decide)).1

/-- When the first placeholder has no room any more the second one is not used. -/
theorem not_pool_refines : ¬∀ (m : Pages ℕ) (es : List Request),
    Refine.Refines (Admin.call m) Pool.spec .new .new es := by
  intro h
  have hrun := h samplePages [.add_placeholder 100, .add_placeholder 100, .alloc true, .alloc true]
  revert hrun
  decide

end Libobject.Stub
