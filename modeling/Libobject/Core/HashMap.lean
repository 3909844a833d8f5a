import Libobject.Lib.Refine
import Libobject.Lib.Scan
import Mathlib.Data.Int.Notation

/-!
# The hash map

An array of buckets, each a list of nodes, and the position of the first node kept beside it. The
hash function and the comparison of keys are set independently of each other. A position is a node
and the number of the bucket it is in.
-/

namespace Libobject

structure HashNode (K V : Type) where
  addr : ℕ
  key : K
  value : V

namespace HashMap

structure Pos where
  hlist_node_p : Option ℕ
  bucket_pos : ℕ
  deriving DecidableEq

end HashMap

structure HashMap (K V : Type) where
  hlist : List (List (HashNode K V))
  begin : HashMap.Pos
  node_count : ℕ
  fresh : ℕ

/-- The two functions that a map is set up with; `eq` is a comparison that yields zero. -/
structure HashKeys (K : Type) where
  hash_func : K → ℕ → ℕ
  eq : K → K → Bool

namespace HashMap

variable {K V : Type}

/-- `hash_map_init`; a size that was not set is 20. -/
def init (bucket_size : ℕ) : HashMap K V where
  hlist := List.replicate (if bucket_size = 0 then 20 else bucket_size) []
  begin := ⟨none, 0⟩
  node_count := 0
  fresh := 0

def bucket_size (m : HashMap K V) : ℕ := m.hlist.length

def entry (n : HashNode K V) : K × V := (n.key, n.value)

def nodes (m : HashMap K V) : List (HashNode K V) := m.hlist.flatten

/-- The first node of the first bucket that is not empty, counting the buckets from `b`. -/
def firstEntry : ℕ → List (List (HashNode K V)) → Option (ℕ × ℕ)
  | _, [] => none
  | b, [] :: hlist => firstEntry (b + 1) hlist
  | b, (n :: _) :: _ => some (b, n.addr)

/-- The `next` of the node at `p`, where the bucket has it. -/
def nodeNext (p : ℕ) : List (HashNode K V) → Option (Option ℕ)
  | [] => none
  | n :: ns => if n.addr = p then some (ns.head?.map HashNode.addr) else nodeNext p ns

/-- `hash_map_pos_next`, which leaves a position at the end as it is. -/
def pos_next (m : HashMap K V) (pos : Pos) : Option Pos :=
  match pos.hlist_node_p with
  | none => some pos
  | some p =>
    match (m.hlist[pos.bucket_pos]?).bind (nodeNext p) with
    | none => none
    | some (some q) => some ⟨some q, pos.bucket_pos⟩
    | some none =>
      if pos.bucket_pos < m.bucket_size - 1 then
        match firstEntry (pos.bucket_pos + 1) (m.hlist.drop (pos.bucket_pos + 1)) with
        | some (b, q) => some ⟨some q, b⟩
        | none => some ⟨none, m.bucket_size - 1⟩
      else if pos.bucket_pos = m.bucket_size - 1 then some ⟨none, pos.bucket_pos⟩
      else some pos

/-- The node, if there is memory for it, is put at the front of its bucket. The return value is the
count before. -/
def insert (f : HashKeys K) (m : HashMap K V) (mem : Bool) (key : K) (value : V) :
    Option (HashMap K V × ℤ) :=
  let b := f.hash_func key m.bucket_size
  if ¬mem then some (m, -1)
  else if b < m.bucket_size then
    some (⟨m.hlist.modify b (⟨m.fresh, key, value⟩ :: ·),
      if m.begin.hlist_node_p = none ∨ b ≤ m.begin.bucket_pos then ⟨some m.fresh, b⟩ else m.begin,
      m.node_count + 1, m.fresh + 1⟩, m.node_count)
  else none

def search (f : HashKeys K) (m : HashMap K V) (key : K) :
    Option (Option (HashNode K V × ℕ)) :=
  let b := f.hash_func key m.bucket_size
  (m.hlist[b]?).map fun ns ↦ (ns.find? fun n ↦ f.eq n.key key).map fun n ↦ (n, b)

/-- `hash_map_delete` at the node `n` of bucket `b`. -/
def delete (m : HashMap K V) (n : HashNode K V) (b : ℕ) : Option (HashMap K V) :=
  let hlist := m.hlist.modify b (·.eraseP fun x ↦ x.addr = n.addr)
  if some n.addr = m.begin.hlist_node_p then
    (m.pos_next ⟨some n.addr, b⟩).map fun next ↦
      { m with hlist := hlist, begin := next, node_count := m.node_count - 1 }
  else some { m with hlist := hlist, node_count := m.node_count - 1 }

/-- `__del` of the map class, with the node that it frees. -/
def del (f : HashKeys K) (m : HashMap K V) (key : K) :
    Option (HashMap K V × Option (HashNode K V)) :=
  match m.search f key with
  | none => none
  | some none => some (m, none)
  | some (some (n, b)) => (m.delete n b).map fun m' ↦ (m', some n)

/-- `__remove` is `__del` with the value and, for a key that is not found, a line in the log in
which the key is a text; `isText` tells which keys are addresses of C strings. -/
def remove (isText : K → Bool) (f : HashKeys K) (m : HashMap K V) (key : K) :
    Option (HashMap K V × Option (HashNode K V)) :=
  if m.search f key matches some none ∧ ¬isText key then none else m.del f key

def nodeAt (m : HashMap K V) (p : ℕ) : Option (HashNode K V) := m.nodes.find? fun n ↦ n.addr = p

/-- `for (cur = begin; !end->equal(end, cur); cur->next(cur))`, at most `n` times around. -/
def forEach (m : HashMap K V) : ℕ → Pos → Option (List (K × V))
  | 0, pos => if pos.hlist_node_p = none then some [] else none
  | n + 1, pos =>
    match pos.hlist_node_p with
    | none => some []
    | some p =>
      match m.nodeAt p, m.pos_next pos with
      | some e, some next => (forEach m n next).map (entry e :: ·)
      | _, _ => none

inductive Call (K V : Type)
  | add (mem : Bool) (k : K) (v : V)
  | remove (k : K)
  | del (k : K)
  | search (k : K)
  | forEach
  | count
  deriving DecidableEq

/-- What a call tells its caller. The entry that `del` frees is named, though the code keeps it. -/
inductive Answer (K V : Type)
  | ret (r : ℤ)
  | entry (e : Option (K × V))
  | entries (es : List (K × V))
  deriving DecidableEq

def call (isText : K → Bool) (f : HashKeys K) (m : HashMap K V) :
    Call K V → Option (HashMap K V × Answer K V)
  | .add mem k v => (m.insert f mem k v).map fun r ↦ (r.1, .ret r.2)
  | .remove k => (m.remove isText f k).map fun r ↦ (r.1, .entry (r.2.map entry))
  | .del k => (m.del f k).map fun r ↦ (r.1, .entry (r.2.map entry))
  | .search k => (m.search f k).map fun r ↦ (m, .entry (r.map fun n ↦ entry n.1))
  | .forEach => (m.forEach m.node_count m.begin).map fun es ↦ (m, .entries es)
  | .count => some (m, .ret m.node_count)

/-- The map as its callers may think of it: the live entries, in no order. -/
def multimap (f : HashKeys K) [DecidableEq K] [DecidableEq V] :
    Spec (List (K × V)) (Call K V) (Answer K V) where
  ok live
    | .add mem _ _, .ret r => r = if mem then (live.length : ℤ) else -1
    | .count, .ret r => r = live.length
    | .remove k, .entry (some e) | .del k, .entry (some e) | .search k, .entry (some e) =>
      f.eq e.1 k = true ∧ e ∈ live
    | .remove k, .entry none | .del k, .entry none | .search k, .entry none =>
      ∀ e ∈ live, f.eq e.1 k = false
    | .forEach, .entries es => es.Perm live
    | _, _ => False
  next live
    | .add mem k v, _ => if mem then (k, v) :: live else live
    | .remove _, .entry (some e) | .del _, .entry (some e) => live.erase e
    | _, _ => live

/-- The hash value of the key is a bucket, and if a key in the map is equal to it, then one such
key is in that bucket. -/
def Finds (f : HashKeys K) (m : HashMap K V) (k : K) : Prop :=
  f.hash_func k m.bucket_size < m.bucket_size ∧
    ((∃ n ∈ m.nodes, f.eq n.key k = true) → ∃ n ∈ m.nodes, f.eq n.key k = true ∧
      f.hash_func n.key m.bucket_size = f.hash_func k m.bucket_size)

def Regular (isText : K → Bool) (f : HashKeys K) (m : HashMap K V) : Call K V → Prop
  | .add _ k _ => f.hash_func k m.bucket_size < m.bucket_size
  | .remove k => Finds f m k ∧ (isText k = true ∨ ∃ n ∈ m.nodes, f.eq n.key k = true)
  | .del k | .search k => Finds f m k
  | .forEach | .count => True

/-- The low 32 bits of the address, reduced to the number of buckets. -/
def default_hash_func (key bucket_size : ℕ) : ℕ := key % 4294967296 % bucket_size

/-- Keys are addresses of C strings. -/
def string_key_cmp_func (mem : ℕ → Text) (key1 key2 : ℕ) : Ordering :=
  strcmp (mem key1) (mem key2)

/-- The map's own hash function with the comparison of strings. -/
def stringKeys (mem : ℕ → Text) : HashKeys ℕ where
  hash_func := default_hash_func
  eq key1 key2 := string_key_cmp_func mem key1 key2 = .eq

section Buckets

theorem firstEntry_append (b : ℕ) (bs cs : List (List (HashNode K V))) :
    firstEntry b (bs ++ cs) = (firstEntry b bs).or (firstEntry (b + bs.length) cs) := by
  induction bs generalizing b with
  | nil => rfl
  | cons ns bs ih =>
    cases ns with
    | nil =>
      rw [List.cons_append, firstEntry, firstEntry, ih, List.length_cons]
      congr 2
      omega
    | cons n ns => rfl

theorem firstEntry_some {b c q : ℕ} {cs : List (List (HashNode K V))}
    (h : firstEntry b cs = some (c, q)) :
    ∃ pre n ns post, cs = pre ++ (n :: ns) :: post ∧ pre.flatten = [] ∧ c = b + pre.length ∧
      q = n.addr := by
  induction cs generalizing b with
  | nil => cases h
  | cons ns cs ih =>
    cases ns with
    | nil =>
      obtain ⟨pre, n, ns, post, rfl, hpre, rfl, rfl⟩ := ih h
      refine ⟨[] :: pre, n, ns, post, rfl, by simp [hpre], ?_, rfl⟩
      rw [List.length_cons]
      omega
    | cons n ns =>
      cases h
      exact ⟨[], n, ns, cs, rfl, rfl, rfl, rfl⟩

theorem firstEntry_none {b : ℕ} {cs : List (List (HashNode K V))} (h : firstEntry b cs = none) :
    cs.flatten = [] := by
  induction cs generalizing b with
  | nil => rfl
  | cons ns cs ih =>
    cases ns with
    | nil => exact ih h
    | cons n ns => cases h

theorem nodeNext_split {xs ys : List (HashNode K V)} {n : HashNode K V}
    (hnodup : ((xs ++ n :: ys).map HashNode.addr).Nodup) :
    nodeNext n.addr (xs ++ n :: ys) = some (ys.head?.map HashNode.addr) := by
  induction xs with
  | nil => rw [List.nil_append, nodeNext, if_pos rfl]
  | cons x xs ih =>
    rw [List.cons_append, List.map_cons, List.nodup_cons] at hnodup
    have hne : x.addr ≠ n.addr := by
      intro heq
      exact hnodup.1 (heq ▸ List.mem_map_of_mem (by simp))
    rw [List.cons_append, nodeNext, if_neg hne, ih hnodup.2]

theorem modify_split {α : Type*} (bs cs : List α) (a : α) (f : α → α) :
    (bs ++ a :: cs).modify bs.length f = bs ++ f a :: cs := by
  induction bs with
  | nil => rfl
  | cons b bs ih =>
    rw [List.cons_append, List.length_cons, List.modify_succ_cons, ih, List.cons_append]

theorem eraseP_split {xs ys : List (HashNode K V)} {n : HashNode K V}
    (hnodup : ((xs ++ n :: ys).map HashNode.addr).Nodup) :
    (xs ++ n :: ys).eraseP (fun x ↦ x.addr = n.addr) = xs ++ ys := by
  rw [List.eraseP_append_right]
  · simp
  · intro x hx heq
    rw [List.map_append, List.map_cons, List.nodup_middle, List.nodup_cons] at hnodup
    apply hnodup.1
    have hxn : x.addr = n.addr := by simpa using heq
    exact hxn ▸ List.mem_append_left _ (List.mem_map_of_mem hx)

theorem bucket_split {α : Type*} {hlist : List α} {b : ℕ} {ns : α} (h : hlist[b]? = some ns) :
    ∃ bs cs, hlist = bs ++ ns :: cs ∧ bs.length = b := by
  obtain ⟨hb, rfl⟩ := List.getElem?_eq_some_iff.mp h
  refine ⟨hlist.take b, hlist.drop (b + 1), ?_, List.length_take_of_le (Nat.le_of_lt hb)⟩
  rw [List.getElem_cons_drop, List.take_append_drop]

end Buckets

/-- The position is that of the first of the nodes `rest`, or the end. -/
def Points (m : HashMap K V) (pos : Pos) (rest : List (HashNode K V)) : Prop :=
  (rest = [] ∧ pos.hlist_node_p = none) ∨
    ∃ bs xs n ys cs, m.hlist = bs ++ (xs ++ n :: ys) :: cs ∧ pos = ⟨some n.addr, bs.length⟩ ∧
      rest = n :: (ys ++ cs.flatten)

/-- What `hash_map_pos_next` comes to after the last node of a bucket. -/
def nextBucket (m : HashMap K V) (b : ℕ) (cs : List (List (HashNode K V))) : Pos :=
  match firstEntry b cs with
  | some (c, q) => ⟨some q, c⟩
  | none => ⟨none, m.bucket_size - 1⟩

theorem pos_next_eq {m : HashMap K V} {bs cs : List (List (HashNode K V))}
    {xs ys : List (HashNode K V)} {n : HashNode K V} (hnodup : (m.nodes.map HashNode.addr).Nodup)
    (hm : m.hlist = bs ++ (xs ++ n :: ys) :: cs) :
    m.pos_next ⟨some n.addr, bs.length⟩ = some (match ys with
      | y :: _ => ⟨some y.addr, bs.length⟩
      | [] => m.nextBucket (bs.length + 1) cs) := by
  have hbucket : m.hlist[bs.length]? = some (xs ++ n :: ys) := by
    rw [hm, List.getElem?_append_right (le_refl _), Nat.sub_self, List.getElem?_cons_zero]
  have hsize : m.bucket_size = bs.length + cs.length + 1 := by
    rw [bucket_size, hm, List.length_append, List.length_cons]
    omega
  have hdrop : m.hlist.drop (bs.length + 1) = cs := by
    rw [hm, List.append_cons]
    exact List.drop_left' (by simp)
  have hinner : ((xs ++ n :: ys).map HashNode.addr).Nodup := by
    rw [nodes, hm, List.flatten_append, List.flatten_cons, List.map_append, List.map_append,
      List.nodup_append] at hnodup
    exact (List.nodup_append.mp hnodup.2.1).1
  rw [pos_next]
  simp only [hbucket, Option.bind_some, nodeNext_split hinner, hdrop]
  cases ys with
  | cons y ys => rfl
  | nil =>
    simp only [List.head?_nil, Option.map_none, nextBucket]
    cases cs with
    | nil =>
      rw [if_neg (by simp [hsize]), if_pos (by simp [hsize])]
      simp [firstEntry, hsize]
    | cons c cs =>
      rw [if_pos (by rw [hsize, List.length_cons]; omega)]
      cases firstEntry (bs.length + 1) (c :: cs) <;> rfl

theorem points_nextBucket {m : HashMap K V} {bs cs : List (List (HashNode K V))}
    (hm : m.hlist = bs ++ cs) : Points m (m.nextBucket bs.length cs) cs.flatten := by
  rw [nextBucket]
  cases hfirst : firstEntry bs.length cs with
  | none => exact .inl ⟨firstEntry_none hfirst, rfl⟩
  | some r =>
    obtain ⟨pre, n, ns, post, rfl, hpre, hc, hq⟩ := firstEntry_some hfirst
    refine .inr ⟨bs ++ pre, [], n, ns, post, by simp [hm], ?_, by simp [hpre]⟩
    rw [List.length_append, ← hc, ← hq]

theorem Points.next {m : HashMap K V} {pos : Pos} {n : HashNode K V}
    {rest : List (HashNode K V)} (hnodup : (m.nodes.map HashNode.addr).Nodup)
    (h : Points m pos (n :: rest)) :
    pos.hlist_node_p = some n.addr ∧ n ∈ m.nodes ∧
      ∃ pos', m.pos_next pos = some pos' ∧ Points m pos' rest := by
  rcases h with ⟨hnil, -⟩ | ⟨bs, xs, n', ys, cs, hm, rfl, hrest⟩
  · cases hnil
  · rw [List.cons.injEq] at hrest
    obtain ⟨rfl, rfl⟩ := hrest
    refine ⟨rfl, by simp [nodes, hm], _, pos_next_eq hnodup hm, ?_⟩
    cases ys with
    | cons y ys => exact .inr ⟨bs, xs ++ [n], y, ys, cs, by simp [hm], rfl, rfl⟩
    | nil =>
      have hm' : m.hlist = (bs ++ [xs ++ [n]]) ++ cs := by simp [hm]
      simpa using points_nextBucket hm'

theorem nodeAt_eq {m : HashMap K V} {n : HashNode K V}
    (hnodup : (m.nodes.map HashNode.addr).Nodup) (hn : n ∈ m.nodes) :
    m.nodeAt n.addr = some n := by
  cases hfind : m.nodeAt n.addr with
  | none =>
    have hnone := List.find?_eq_none.mp hfind n hn
    simp at hnone
  | some x =>
    have hx := List.find?_some hfind
    have hmem := List.mem_of_find?_eq_some hfind
    rw [List.inj_on_of_nodup_map hnodup hmem hn (by simpa using hx)]

theorem forEach_points {m : HashMap K V} {pos : Pos} {rest : List (HashNode K V)} {fuel : ℕ}
    (hnodup : (m.nodes.map HashNode.addr).Nodup) (h : Points m pos rest)
    (hfuel : rest.length ≤ fuel) : m.forEach fuel pos = some (rest.map entry) := by
  induction rest generalizing pos fuel with
  | nil =>
    have hend : pos.hlist_node_p = none := by
      rcases h with ⟨-, hend⟩ | ⟨bs, xs, n, ys, cs, -, -, hrest⟩
      · exact hend
      · cases hrest
    cases fuel with
    | zero => rw [forEach, if_pos hend, List.map_nil]
    | succ fuel => rw [forEach, hend, List.map_nil]
  | cons n rest ih =>
    obtain ⟨hpos, hn, pos', hnext, hpoints⟩ := h.next hnodup
    obtain ⟨fuel, rfl⟩ : ∃ k, fuel = k + 1 := ⟨fuel - 1, by simp at hfuel; omega⟩
    have hrest := ih hpoints (by simpa using hfuel)
    rw [forEach, hpos]
    simp only [nodeAt_eq hnodup hn, hnext, hrest, Option.map_some, List.map_cons]

/-- The position of the first node of the first bucket that is not empty, or the end. -/
def BeginsAt (hlist : List (List (HashNode K V))) (begin : Pos) : Prop :=
  match firstEntry 0 hlist with
  | some (b, q) => begin = ⟨some q, b⟩
  | none => begin.hlist_node_p = none

/-- The map has the live entries, each in the bucket of its key, and `begin` is what it says. -/
structure Holds (f : HashKeys K) (m : HashMap K V) (live : List (K × V)) : Prop where
  perm : (m.nodes.map entry).Perm live
  nodup : (m.nodes.map HashNode.addr).Nodup
  lt_fresh : ∀ n ∈ m.nodes, n.addr < m.fresh
  hashed : ∀ b ns, m.hlist[b]? = some ns → ∀ n ∈ ns, f.hash_func n.key m.bucket_size = b
  beginsAt : BeginsAt m.hlist m.begin
  count_eq : m.node_count = live.length
  size_pos : 0 < m.bucket_size

theorem flatten_replicate_nil (n : ℕ) :
    (List.replicate n ([] : List (HashNode K V))).flatten = [] := by
  induction n with
  | zero => rfl
  | succ n ih => rw [List.replicate_succ, List.flatten_cons, ih, List.nil_append]

theorem holds_init (f : HashKeys K) (n : ℕ) : Holds f (init n : HashMap K V) [] := by
  have hnodes : (init n : HashMap K V).nodes = [] := flatten_replicate_nil _
  refine ⟨by rw [hnodes]; exact List.Perm.nil, by simp [hnodes], by simp [hnodes], ?_, ?_, rfl, ?_⟩
  · intro b ns hns x hx
    have hmem : ns ∈ (init n : HashMap K V).hlist := List.mem_of_getElem? hns
    rw [init, List.mem_replicate] at hmem
    rw [hmem.2] at hx
    cases hx
  · rw [BeginsAt]
    cases hfirst : firstEntry 0 (init n : HashMap K V).hlist with
    | none => rfl
    | some r =>
      obtain ⟨pre, x, ns, post, heq, -⟩ := firstEntry_some hfirst
      have hx : x ∈ (init n : HashMap K V).nodes := by simp [nodes, heq]
      simp [hnodes] at hx
  · rw [bucket_size, init, List.length_replicate]
    split_ifs <;> omega

theorem hashed_replace {f : HashKeys K} {bs cs : List (List (HashNode K V))}
    {ns ns' : List (HashNode K V)} {size : ℕ}
    (h : ∀ b x, (bs ++ ns :: cs)[b]? = some x → ∀ n ∈ x, f.hash_func n.key size = b)
    (hns' : ∀ n ∈ ns', n ∉ ns → f.hash_func n.key size = bs.length) :
    ∀ b x, (bs ++ ns' :: cs)[b]? = some x → ∀ n ∈ x, f.hash_func n.key size = b := by
  intro b x hx n hn
  rcases Nat.lt_trichotomy b bs.length with hlt | rfl | hgt
  · rw [List.getElem?_append_left hlt] at hx
    exact h b x (by rw [List.getElem?_append_left hlt, hx]) n hn
  · rw [List.getElem?_append_right (le_refl _), Nat.sub_self, List.getElem?_cons_zero,
      Option.some.injEq] at hx
    subst hx
    by_cases hold : n ∈ ns
    · refine h bs.length ns ?_ n hold
      rw [List.getElem?_append_right (le_refl _), Nat.sub_self, List.getElem?_cons_zero]
    · exact hns' n hn hold
  · obtain ⟨j, rfl⟩ : ∃ j, b = bs.length + (j + 1) := ⟨b - bs.length - 1, by omega⟩
    have hsub : bs.length + (j + 1) - bs.length = j + 1 := by omega
    rw [List.getElem?_append_right (by omega), hsub, List.getElem?_cons_succ] at hx
    refine h _ x ?_ n hn
    rw [List.getElem?_append_right (by omega), hsub, List.getElem?_cons_succ, hx]

theorem beginsAt_insert {bs cs : List (List (HashNode K V))} {ns : List (HashNode K V)}
    {begin : Pos} {n : HashNode K V} (h : BeginsAt (bs ++ ns :: cs) begin) :
    BeginsAt (bs ++ (n :: ns) :: cs)
      (if begin.hlist_node_p = none ∨ bs.length ≤ begin.bucket_pos then ⟨some n.addr, bs.length⟩
        else begin) := by
  rw [BeginsAt, firstEntry_append] at h ⊢
  cases hfirst : firstEntry 0 bs with
  | some r =>
    obtain ⟨b, q⟩ := r
    obtain ⟨pre, x, xs, post, hbs, -, hb, -⟩ := firstEntry_some hfirst
    have hlt : b < bs.length := by
      rw [hb, hbs, List.length_append, List.length_cons]
      omega
    simp only [hfirst, Option.some_or] at h ⊢
    rw [h, if_neg (by simp; omega)]
  | none =>
    have hcond : begin.hlist_node_p = none ∨ bs.length ≤ begin.bucket_pos := by
      simp only [hfirst, Option.none_or] at h
      cases hrest : firstEntry (0 + bs.length) (ns :: cs) with
      | none =>
        rw [hrest] at h
        exact .inl h
      | some r =>
        obtain ⟨b, q⟩ := r
        obtain ⟨pre, x, xs, post, -, -, hb, -⟩ := firstEntry_some hrest
        rw [hrest] at h
        refine .inr ?_
        rw [h, hb]
        simp
    simp only [Option.none_or, firstEntry, if_pos hcond, Nat.zero_add]

theorem Holds.insert {f : HashKeys K} {m : HashMap K V} {live : List (K × V)}
    (hm : Holds f m live) {k : K} (v : V) (hk : f.hash_func k m.bucket_size < m.bucket_size) :
    ∃ m', m.insert f true k v = some (m', (live.length : ℤ)) ∧ Holds f m' ((k, v) :: live) := by
  obtain ⟨ns, hns⟩ : ∃ ns, m.hlist[f.hash_func k m.bucket_size]? = some ns :=
    ⟨_, List.getElem?_eq_getElem hk⟩
  obtain ⟨bs, cs, hsplit, hlen⟩ := bucket_split hns
  let n : HashNode K V := ⟨m.fresh, k, v⟩
  have hmodify : m.hlist.modify (f.hash_func k m.bucket_size) (n :: ·) =
      bs ++ (n :: ns) :: cs := by
    rw [hsplit, ← hlen, modify_split]
  have hnodes : (bs ++ (n :: ns) :: cs).flatten.Perm (n :: m.nodes) := by
    rw [nodes, hsplit, List.flatten_append, List.flatten_append, List.flatten_cons,
      List.flatten_cons, List.cons_append]
    exact List.perm_middle
  have hsize : (bs ++ (n :: ns) :: cs).length = m.bucket_size := by
    rw [bucket_size, hsplit, List.length_append, List.length_append]
    rfl
  refine ⟨⟨bs ++ (n :: ns) :: cs, if m.begin.hlist_node_p = none ∨ bs.length ≤ m.begin.bucket_pos
    then ⟨some n.addr, bs.length⟩ else m.begin, m.node_count + 1, m.fresh + 1⟩, ?_, ?_⟩
  · rw [HashMap.insert, if_neg (not_not.2 rfl), if_pos hk, hmodify, hm.count_eq, hlen]
  · refine ⟨(hnodes.map entry).trans (hm.perm.cons (k, v)), ?_, ?_, ?_, ?_, ?_, ?_⟩
    · rw [nodes, (hnodes.map HashNode.addr).nodup_iff, List.map_cons, List.nodup_cons]
      refine ⟨?_, hm.nodup⟩
      intro hfresh
      obtain ⟨x, hx, heq⟩ := List.mem_map.mp hfresh
      have hlt := hm.lt_fresh x hx
      have hself : x.addr = m.fresh := heq
      omega
    · intro x hx
      rcases List.mem_cons.mp (hnodes.mem_iff.mp hx) with rfl | hx
      · exact Nat.lt_succ_self m.fresh
      · exact Nat.lt_succ_of_lt (hm.lt_fresh x hx)
    · rw [bucket_size, hsize]
      have hhashed := hm.hashed
      rw [hsplit] at hhashed
      apply hashed_replace hhashed
      intro x hx hnot
      rcases List.mem_cons.mp hx with rfl | hx
      · exact hlen.symm
      · exact absurd hx hnot
    · have hbegins := hm.beginsAt
      rw [hsplit] at hbegins
      exact beginsAt_insert hbegins
    · rw [List.length_cons, hm.count_eq]
    · rw [bucket_size, hsize]
      exact hm.size_pos

theorem search_some {f : HashKeys K} {m : HashMap K V} {k : K} {n : HashNode K V} {b : ℕ}
    (h : m.search f k = some (some (n, b))) :
    f.eq n.key k = true ∧ ∃ bs xs ys cs, m.hlist = bs ++ (xs ++ n :: ys) :: cs ∧ b = bs.length := by
  rw [search] at h
  obtain ⟨ns, hns, hfind⟩ := Option.map_eq_some_iff.mp h
  obtain ⟨x, hx, heq⟩ := Option.map_eq_some_iff.mp hfind
  obtain ⟨rfl, rfl⟩ := Prod.mk.inj heq
  obtain ⟨bs, cs, hsplit, hlen⟩ := bucket_split hns
  obtain ⟨xs, ys, rfl⟩ := List.append_of_mem (List.mem_of_find?_eq_some hx)
  exact ⟨by simpa using List.find?_some hx, bs, xs, ys, cs, hsplit, hlen.symm⟩

theorem Holds.search_none {f : HashKeys K} {m : HashMap K V} {live : List (K × V)}
    (hm : Holds f m live) {k : K} (hk : Finds f m k) (h : m.search f k = some none) :
    ∀ e ∈ live, f.eq e.1 k = false := by
  intro e he
  by_contra hne
  obtain ⟨n, hn, rfl⟩ := List.mem_map.mp (hm.perm.mem_iff.mpr he)
  have heq : f.eq n.key k = true := Bool.of_not_eq_false hne
  obtain ⟨n', hn', heq', hhash⟩ := hk.2 ⟨n, hn, heq⟩
  obtain ⟨ns, hns, hmem⟩ := List.mem_flatten.mp hn'
  obtain ⟨b, hb, rfl⟩ := List.getElem_of_mem hns
  have hbucket : m.hlist[b]? = some m.hlist[b] := List.getElem?_eq_getElem hb
  have hkey := hm.hashed b _ hbucket n' hmem
  rw [search, ← hhash, hkey, hbucket] at h
  have hfind : m.hlist[b].find? (fun n ↦ f.eq n.key k) = none := by simpa using h
  have hnone := List.find?_eq_none.mp hfind n' hmem
  exact hnone heq'

theorem Holds.remove_eq {isText : K → Bool} {f : HashKeys K} {m : HashMap K V}
    {live : List (K × V)} (hm : Holds f m live) {k : K}
    (hreg : Regular isText f m (.remove k : Call K V)) : m.remove isText f k = m.del f k := by
  refine if_neg fun ⟨hnone, hnot⟩ ↦ ?_
  obtain ⟨hk, htext | ⟨n, hn, heq⟩⟩ := hreg
  · exact hnot htext
  · cases hr : m.search f k with
    | none => simp [hr] at hnone
    | some r =>
      cases r with
      | some r => simp [hr] at hnone
      | none =>
        have hmiss := hm.search_none hk hr (entry n)
          (hm.perm.mem_iff.mp (List.mem_map_of_mem hn))
        exact Bool.false_ne_true (hmiss.symm.trans heq)

theorem beginsAt_delete {m : HashMap K V} {bs cs : List (List (HashNode K V))}
    {xs ys : List (HashNode K V)} {n : HashNode K V} (hnodup : (m.nodes.map HashNode.addr).Nodup)
    (hm : m.hlist = bs ++ (xs ++ n :: ys) :: cs) (h : BeginsAt m.hlist m.begin) :
    ∃ begin, (if some n.addr = m.begin.hlist_node_p then m.pos_next ⟨some n.addr, bs.length⟩
        else some m.begin) = some begin ∧ BeginsAt (bs ++ (xs ++ ys) :: cs) begin := by
  rw [BeginsAt, hm, firstEntry_append, Nat.zero_add] at h
  have hnodes : (m.nodes.map HashNode.addr).Nodup := hnodup
  rw [nodes, hm, List.flatten_append, List.flatten_cons, List.append_assoc, List.cons_append,
    ← List.append_assoc, List.map_append, List.map_cons, List.nodup_middle,
    List.nodup_cons] at hnodes
  have hother : ∀ x ∈ bs.flatten ++ xs, some n.addr ≠ some x.addr := by
    intro x hx heq
    apply hnodes.1
    rw [Option.some.inj heq]
    exact List.mem_append_left _ (List.mem_map_of_mem hx)
  simp only [BeginsAt, firstEntry_append, Nat.zero_add]
  cases hfirst : firstEntry 0 bs with
  | some r =>
    obtain ⟨b, q⟩ := r
    obtain ⟨pre, x, rest, post, hbs, -, -, rfl⟩ := firstEntry_some hfirst
    simp only [hfirst, Option.some_or] at h ⊢
    have hne : some n.addr ≠ m.begin.hlist_node_p := by
      rw [h]
      exact hother x (by simp [hbs])
    exact ⟨m.begin, by rw [if_neg hne], h⟩
  | none =>
    simp only [hfirst, Option.none_or] at h ⊢
    cases xs with
    | cons x xs =>
      simp only [List.cons_append, firstEntry] at h ⊢
      have hne : some n.addr ≠ m.begin.hlist_node_p := by
        rw [h]
        exact hother x (by simp)
      exact ⟨m.begin, by rw [if_neg hne], h⟩
    | nil =>
      simp only [List.nil_append, firstEntry] at h ⊢
      refine ⟨_, by rw [if_pos (by rw [h]), pos_next_eq hnodup hm], ?_⟩
      cases ys with
      | cons y ys => rfl
      | nil =>
        simp only [firstEntry, nextBucket]
        cases firstEntry (bs.length + 1) cs with
        | none => rfl
        | some r => rfl

theorem Holds.delete [DecidableEq K] [DecidableEq V] {f : HashKeys K} {m : HashMap K V}
    {live : List (K × V)} (hm : Holds f m live) {bs cs : List (List (HashNode K V))}
    {xs ys : List (HashNode K V)} {n : HashNode K V}
    (hsplit : m.hlist = bs ++ (xs ++ n :: ys) :: cs) :
    ∃ m', m.delete n bs.length = some m' ∧ Holds f m' (live.erase (entry n)) := by
  obtain ⟨begin, hbegin, hbegins⟩ := beginsAt_delete hm.nodup hsplit hm.beginsAt
  have hnodes : m.nodes.Perm (n :: (bs ++ (xs ++ ys) :: cs).flatten) := by
    rw [nodes, hsplit, List.flatten_append, List.flatten_append, List.flatten_cons,
      List.flatten_cons, List.append_assoc, List.append_assoc, List.cons_append,
      ← List.append_assoc, ← List.append_assoc]
    exact List.perm_middle
  have hinner : ((xs ++ n :: ys).map HashNode.addr).Nodup := by
    have hnodup := hm.nodup
    rw [nodes, hsplit, List.flatten_append, List.flatten_cons, List.map_append, List.map_append,
      List.nodup_append] at hnodup
    exact (List.nodup_append.mp hnodup.2.1).1
  have hmodify : m.hlist.modify bs.length (·.eraseP fun x ↦ x.addr = n.addr) =
      bs ++ (xs ++ ys) :: cs := by
    rw [hsplit, modify_split, eraseP_split hinner]
  have hsize : (bs ++ (xs ++ ys) :: cs).length = m.bucket_size := by
    rw [bucket_size, hsplit, List.length_append, List.length_append]
    rfl
  have hlive : live.Perm (entry n :: ((bs ++ (xs ++ ys) :: cs).flatten.map entry)) :=
    hm.perm.symm.trans (hnodes.map entry)
  have herase := hlive.erase (entry n)
  rw [List.erase_cons_head] at herase
  have hnodup := (hnodes.map HashNode.addr).nodup_iff.mp hm.nodup
  rw [List.map_cons, List.nodup_cons] at hnodup
  refine ⟨⟨bs ++ (xs ++ ys) :: cs, begin, m.node_count - 1, m.fresh⟩, ?_, ?_⟩
  · rw [HashMap.delete, hmodify]
    split_ifs at hbegin ⊢
    · rw [hbegin, Option.map_some]
    · rw [Option.some.inj hbegin]
  · refine ⟨herase.symm, hnodup.2, ?_, ?_, hbegins, ?_, ?_⟩
    · intro x hx
      exact hm.lt_fresh x (hnodes.mem_iff.mpr (List.mem_cons_of_mem n hx))
    · rw [bucket_size, hsize]
      have hhashed := hm.hashed
      rw [hsplit] at hhashed
      apply hashed_replace hhashed
      intro x hx hnot
      apply absurd _ hnot
      simp only [List.mem_append, List.mem_cons] at hx ⊢
      tauto
    · have hlen := hlive.length_eq
      rw [List.length_cons, ← herase.length_eq] at hlen
      have hcount := hm.count_eq
      change m.node_count - 1 = _
      omega
    · rw [bucket_size, hsize]
      exact hm.size_pos

section Refinement

variable [DecidableEq K] [DecidableEq V] {f : HashKeys K} {m : HashMap K V}
  {live : List (K × V)}

theorem Holds.unlink (hm : Holds f m live) {k : K} (hk : Finds f m k) :
    ∃ m' e, (m.del f k).map (fun r ↦ (r.1, (.entry (r.2.map entry) : Answer K V))) =
        some (m', .entry e) ∧ (multimap f).ok live (.remove k) (.entry e) ∧
      Holds f m' ((multimap f).next live (.remove k) (.entry e)) := by
  obtain ⟨r, hr⟩ : ∃ r, m.search f k = some r := by
    rw [HashMap.search, List.getElem?_eq_getElem hk.1]
    exact ⟨_, rfl⟩
  cases r with
  | none =>
    refine ⟨m, none, ?_, hm.search_none hk hr, hm⟩
    simp [del, hr]
  | some r =>
    obtain ⟨n, b⟩ := r
    obtain ⟨heq, bs, xs, ys, cs, hsplit, rfl⟩ := search_some hr
    obtain ⟨m', hdelete, hm'⟩ := hm.delete hsplit
    have hmem : entry n ∈ live :=
      hm.perm.mem_iff.mp (List.mem_map_of_mem (by simp [nodes, hsplit]))
    refine ⟨m', some (entry n), ?_, ⟨heq, hmem⟩, hm'⟩
    simp only [del, hr, hdelete, Option.map_some]

theorem Holds.call {isText : K → Bool} (hm : Holds f m live) (c : Call K V)
    (hreg : Regular isText f m c) :
    ∃ m' o, m.call isText f c = some (m', o) ∧ (multimap f).ok live c o ∧
      Holds f m' ((multimap f).next live c o) := by
  cases c with
  | add mem k v =>
    cases mem with
    | false => exact ⟨m, .ret (-1), rfl, rfl, hm⟩
    | true =>
      obtain ⟨m', hinsert, hm'⟩ := hm.insert v hreg
      refine ⟨m', .ret live.length, ?_, rfl, hm'⟩
      rw [HashMap.call, hinsert, Option.map_some]
  | remove k =>
    obtain ⟨m', e, hcall, hok, hm'⟩ := hm.unlink hreg.1
    refine ⟨m', _, ?_, hok, hm'⟩
    rw [HashMap.call, hm.remove_eq hreg, hcall]
  | del k =>
    obtain ⟨m', e, hcall, hok, hm'⟩ := hm.unlink hreg
    cases e with
    | none => exact ⟨m', _, hcall, hok, hm'⟩
    | some e => exact ⟨m', _, hcall, hok, hm'⟩
  | search k =>
    obtain ⟨r, hr⟩ : ∃ r, m.search f k = some r := by
      rw [HashMap.search, List.getElem?_eq_getElem hreg.1]
      exact ⟨_, rfl⟩
    refine ⟨m, .entry (r.map fun n ↦ entry n.1), ?_, ?_, hm⟩
    · rw [HashMap.call, hr, Option.map_some]
    · cases r with
      | none => exact hm.search_none hreg hr
      | some r =>
        obtain ⟨n, b⟩ := r
        obtain ⟨heq, bs, xs, ys, cs, hsplit, -⟩ := search_some hr
        exact ⟨heq, hm.perm.mem_iff.mp (List.mem_map_of_mem (by simp [nodes, hsplit]))⟩
  | forEach =>
    have hbegin : Points m m.begin m.nodes := by
      have hbegins := hm.beginsAt
      rw [BeginsAt] at hbegins
      cases hfirst : firstEntry 0 m.hlist with
      | none =>
        rw [hfirst] at hbegins
        exact .inl ⟨firstEntry_none hfirst, hbegins⟩
      | some r =>
        obtain ⟨b, q⟩ := r
        obtain ⟨pre, n, ns, post, hsplit, hpre, hb, rfl⟩ := firstEntry_some hfirst
        rw [hfirst] at hbegins
        refine .inr ⟨pre, [], n, ns, post, hsplit, ?_, by simp [nodes, hsplit, hpre]⟩
        rw [hbegins, hb, Nat.zero_add]
    have hcount : m.nodes.length ≤ m.node_count := by
      rw [hm.count_eq, ← hm.perm.length_eq, List.length_map]
    refine ⟨m, .entries (m.nodes.map entry), ?_, hm.perm, hm⟩
    rw [HashMap.call, forEach_points hm.nodup hbegin hcount, Option.map_some]
  | count => exact ⟨m, _, rfl, congrArg (fun n : ℕ ↦ (n : ℤ)) hm.count_eq, hm⟩

/-- As long as the two functions of the map agree on the keys that are looked up, and no key is
logged that is not a text, it answers as a multimap, and `begin` is the first node of the first
bucket that is not empty. -/
theorem refines_entries (isText : K → Bool) (f : HashKeys K) (size : ℕ) {cs : List (Call K V)}
    (hrun : Refine.Within (call isText f) (multimap f) (Regular isText f) (init size) [] cs) :
    (∃ m live, Run.final (Refine.step (call isText f) (multimap f)) (some (init size), []) cs =
        (some m, live) ∧ Holds f m live) ∧
      Refine.Refines (call isText f) (multimap f) (init size : HashMap K V) [] cs :=
  Refine.refines_of_simulation (I := Holds f) (fun _ _ c hm hreg ↦ hm.call c hreg)
    (holds_init f size) hrun

end Refinement

instance decidableRegular (isText : K → Bool) (f : HashKeys K) (m : HashMap K V) (c : Call K V) :
    Decidable (Regular isText f m c) := by
  unfold Regular Finds
  split <;> infer_instance

instance decidableOk [DecidableEq K] [DecidableEq V] (f : HashKeys K) (live : List (K × V))
    (c : Call K V) (o : Answer K V) : Decidable ((multimap f).ok live c o) := by
  unfold multimap
  dsimp only
  split <;> infer_instance

/-- Two copies of one string, and another string. -/
def twoCopies (p : ℕ) : Text :=
  if p = 4096 ∨ p = 4104 then Scan.ascii "test2" else Scan.ascii "test0"

/-- The second copy hashes to the bucket of the first one when there are 8 buckets. -/
theorem refines_entries_same_bucket :
    (∃ m live, Run.final (Refine.step (call (fun _ ↦ true) (stringKeys twoCopies))
        (multimap (stringKeys twoCopies))) (some (init 8), [])
          [.add true 4096 2, .add true 5001 0, .search 4104, .remove 4104, .forEach, .count] =
        (some m, live) ∧ Holds (stringKeys twoCopies) m live) ∧
      Refine.Refines (call (fun _ ↦ true) (stringKeys twoCopies)) (multimap (stringKeys twoCopies))
        (init 8 : HashMap ℕ ℕ) []
        [.add true 4096 2, .add true 5001 0, .search 4104, .remove 4104, .forEach, .count] :=
  refines_entries (fun _ ↦ true) (stringKeys twoCopies) 8 (by decide)

/-- With the 20 buckets of a map that was not told otherwise, the copies are different keys. -/
theorem not_refines_entries_two_copies :
    ¬ ∀ (mem : ℕ → Text) (cs : List (Call ℕ ℕ)),
      Refine.Refines (call (fun _ ↦ true) (stringKeys mem)) (multimap (stringKeys mem))
        (init 0 : HashMap ℕ ℕ) [] cs := by
  intro h
  have hrun := h twoCopies [.add true 4096 2, .search 4104]
  revert hrun
  decide

end HashMap

end Libobject
