import Libobject.Core.Rbmap
import Libobject.Lib.Machine
import Libobject.Lib.Scan

/-!
# The objects of the bus daemon

The daemon keeps the objects that its clients have registered in a map under their ids, where
several may have one id. A key of the map is the id inside an object, so a search reads the objects
of the nodes on its way. When a connection closes, the daemon goes through the map and takes out
what belongs to the connection while it stands on it.
-/

namespace Libobject.Bus

open Std

/-- `struct busd_object`, with its address; its id is a C string that fits. -/
structure BusObject where
  addr : ℕ
  id : Text
  fd : ℤ
  deriving DecidableEq

abbrev ObjMap := Rbmap strcmp BusObject

abbrev ObjNode := Rbmap.Node Text BusObject

def ObjMap.objects (map : ObjMap) : List BusObject := map.nodes.map fun n ↦ n.2.2

/-- `busd_t`: every object of the map has memory of its own, and its id for a key. -/
structure Busd where
  map : ObjMap
  fresh : ℕ
  repr : Rbmap.Repr map (map.nodes.map Rbmap.entry)
  keyed : ∀ n ∈ map.nodes, n.1 = n.2.2.id
  nodup : (map.objects.map BusObject.addr).Nodup
  lt_fresh : ∀ o ∈ map.objects, o.addr < fresh

/-! ## Registration -/

section Registration

variable (rb : Rebalance ObjNode)

theorem nodes_insert (map : ObjMap) (k : Text) (o : BusObject) :
    List.Perm (map.insert rb true k o).1.nodes ((k, (map.fresh, o)) :: map.nodes) :=
  RbTreeMap.entries_add rb map.tree k (map.fresh, o)

theorem objects_insert (map : ObjMap) (k : Text) (o : BusObject) :
    List.Perm (ObjMap.objects (map.insert rb true k o).1) (o :: map.objects) := by
  have h := (nodes_insert rb map k o).map fun n : ObjNode ↦ n.2.2
  rwa [List.map_cons] at h

def Busd.init : Busd where
  map := Rbmap.init
  fresh := 0
  repr := Rbmap.repr_init
  keyed := by simp [Rbmap.nodes, Rbmap.init]
  nodup := List.nodup_nil
  lt_fresh := by simp [ObjMap.objects, Rbmap.nodes, Rbmap.init]

/-- `busd_handle_add_object` of a message that has both attributes; the allocator has memory. -/
def Busd.handle_add_object (busd : Busd) (object_id : Text) (fd : ℤ) : Busd where
  map := (busd.map.insert rb true object_id ⟨busd.fresh, object_id, fd⟩).1
  fresh := busd.fresh + 1
  repr := by
    have h := busd.repr.insert rb object_id ⟨busd.fresh, object_id, fd⟩
    exact ⟨List.Perm.refl _, h.nodup, h.lt_fresh, h.begin_eq⟩
  keyed := by
    intro n hn
    rcases List.mem_cons.mp ((nodes_insert rb busd.map _ _).subset hn) with rfl | hn
    · rfl
    · exact busd.keyed n hn
  nodup := by
    have hperm := (objects_insert rb busd.map object_id ⟨busd.fresh, object_id, fd⟩).map
      BusObject.addr
    rw [hperm.nodup_iff, List.map_cons, List.nodup_cons]
    refine ⟨fun hmem ↦ ?_, busd.nodup⟩
    obtain ⟨o, ho, heq⟩ := List.mem_map.mp hmem
    exact Nat.ne_of_lt (busd.lt_fresh o ho) heq
  lt_fresh := by
    intro o ho
    rcases List.mem_cons.mp ((objects_insert rb busd.map _ _).subset ho) with rfl | ho
    · exact Nat.lt_succ_self _
    · exact Nat.lt_succ_of_lt (busd.lt_fresh o ho)

/-- The daemon after registrations, each with its id and its connection. -/
def registered (regs : List (Text × ℤ)) : Busd :=
  regs.foldl (fun busd r ↦ busd.handle_add_object rb r.1 r.2) Busd.init

end Registration

/-! ## Release -/

/-- `__rbtree_map_search`, which reads the keys on its way: undefined where the object of a key has
been freed. -/
def searchIn {ι : Type*} (freed : List ℕ) (key : Text) : Tree ι ObjNode → Option (Option ObjNode)
  | .leaf => some none
  | .node _ rb_left mnode rb_right =>
    if mnode.2.2.addr ∈ freed then none
    else
      match strcmp key mnode.1 with
      | .lt => searchIn freed key rb_left
      | .gt => searchIn freed key rb_right
      | .eq => some (some mnode)

/-- `map->remove(map, obj->id, NULL)`. -/
def removeIn (rb : Rebalance ObjNode) (freed : List ℕ) (map : ObjMap) (key : Text) :
    Option ObjMap :=
  match searchIn freed key map.tree.root with
  | none => none
  | some none => some map
  | some (some mnode) => map.removeAt rb key mnode

/-- The traversal: the map, the objects that have been freed, and the node it stands on. -/
structure Sweep where
  map : ObjMap
  freed : List ℕ
  cur : Option ℕ

/-- `cur->next(cur)`, which reads the node that the traversal stands on. -/
def Sweep.next (s : Sweep) (p : ℕ) : Move Sweep Sweep :=
  match Rbmap.rb_next s.map.tree p with
  | none => .wild
  | some later => .next { s with cur := later }

/-- One turn of the loop of `busd_release_bus_object`. -/
def releaseTurn (rb : Rebalance ObjNode) (fd : ℤ) (s : Sweep) : Move Sweep Sweep :=
  match s.cur with
  | none => .done s
  | some p =>
    match s.map.tree.root.at? Rbmap.addr p with
    | none => .wild
    | some n =>
      let obj := n.2.2
      if obj.addr ∈ s.freed then .wild
      else if obj.fd ≠ fd then s.next p
      else
        match removeIn rb s.freed s.map obj.id with
        | none => .wild
        | some map => Sweep.next { s with map, freed := obj.addr :: s.freed } p

def Busd.sweep (busd : Busd) : Sweep := ⟨busd.map, [], busd.map.begin⟩

/-- What the release of a connection is for: the traversal ends, and just the objects of the other
connections are left, with their memory. -/
structure Sweep.Clean (s : Sweep) (objs : List BusObject) (fd : ℤ) : Prop where
  left : List.Perm s.map.objects (objs.filter fun o ↦ o.fd ≠ fd)
  valid : ∀ o ∈ s.map.objects, o.addr ∉ s.freed

def Releases (rb : Rebalance ObjNode) (busd : Busd) (fd : ℤ) : Prop :=
  ∃ n s, Machine.after (releaseTurn rb fd) n busd.sweep = .done s ∧ s.Clean busd.map.objects fd

section Traversal

variable {rb : Rebalance ObjNode} {fd : ℤ}

theorem Sweep.next_eq {s t : Sweep} {p : ℕ} (h : s.next p = .next t) :
    t.map = s.map ∧ t.freed = s.freed ∧ Rbmap.rb_next s.map.tree p = some t.cur := by
  rw [Sweep.next] at h
  cases hlater : Rbmap.rb_next s.map.tree p with
  | none =>
    rw [hlater] at h
    cases h
  | some later =>
    rw [hlater] at h
    cases h
    exact ⟨rfl, rfl, rfl⟩

theorem releaseTurn_cases {s t : Sweep} (h : releaseTurn rb fd s = .next t) :
    ∃ p n, s.cur = some p ∧ s.map.tree.root.at? Rbmap.addr p = some n ∧
      n.2.2.addr ∉ s.freed ∧ Rbmap.rb_next t.map.tree p = some t.cur ∧
      ((n.2.2.fd ≠ fd ∧ t.map = s.map ∧ t.freed = s.freed) ∨
        (n.2.2.fd = fd ∧ removeIn rb s.freed s.map n.2.2.id = some t.map ∧
          t.freed = n.2.2.addr :: s.freed)) := by
  rw [releaseTurn] at h
  cases hcur : s.cur with
  | none => simp [hcur] at h
  | some p =>
    rw [hcur] at h
    dsimp only at h
    cases hat : s.map.tree.root.at? Rbmap.addr p with
    | none => simp [hat] at h
    | some n =>
      rw [hat] at h
      dsimp only at h
      split_ifs at h with hfreed hfd
      · obtain ⟨hmap, hfree, hnext⟩ := Sweep.next_eq h
        exact ⟨p, n, rfl, hat, hfreed, hmap ▸ hnext, .inl ⟨hfd, hmap, hfree⟩⟩
      · cases hrem : removeIn rb s.freed s.map n.2.2.id with
        | none => simp [hrem] at h
        | some map =>
          rw [hrem] at h
          obtain ⟨rfl, hfree, hnext⟩ := Sweep.next_eq h
          exact ⟨p, n, rfl, hat, hfreed, hnext, .inr ⟨not_not.mp hfd, hrem, hfree⟩⟩

theorem releaseTurn_done {s t : Sweep} (h : releaseTurn rb fd s = .done t) :
    s.cur = none ∧ t = s := by
  rw [releaseTurn] at h
  cases hcur : s.cur with
  | none =>
    rw [hcur] at h
    cases h
    exact ⟨rfl, rfl⟩
  | some p =>
    have hnext (u : Sweep) : u.next p ≠ .done t := by
      rw [Sweep.next]
      cases Rbmap.rb_next u.map.tree p <;> simp
    rw [hcur] at h
    dsimp only at h
    cases hat : s.map.tree.root.at? Rbmap.addr p with
    | none => simp [hat] at h
    | some n =>
      rw [hat] at h
      dsimp only at h
      split_ifs at h
      · exact absurd h (hnext s)
      · cases hrem : removeIn rb s.freed s.map n.2.2.id with
        | none => simp [hrem] at h
        | some map =>
          rw [hrem] at h
          exact absurd h (hnext _)

theorem searchIn_some {ι : Type*} {freed : List ℕ} {key : Text} {t : Tree ι ObjNode} {m : ObjNode}
    (h : searchIn freed key t = some (some m)) :
    m.2.2.addr ∉ freed ∧
      ∃ i, t.find (fun n ↦ strcmp key n.1) = some i ∧ t.inorder[i]? = some m := by
  induction t with
  | leaf => cases h
  | node tag l n r ihl ihr =>
    rw [searchIn] at h
    split_ifs at h with hfreed
    rw [Tree.find, Tree.inorder_node]
    cases hcmp : strcmp key n.1 with
    | lt =>
      rw [hcmp] at h
      obtain ⟨hm, i, hi, hget⟩ := ihl h
      obtain ⟨hlt, -⟩ := List.getElem?_eq_some_iff.mp hget
      exact ⟨hm, i, hi, by rw [List.getElem?_append_left hlt, hget]⟩
    | gt =>
      rw [hcmp] at h
      obtain ⟨hm, i, hi, hget⟩ := ihr h
      have hsub : i + (l.inorder.length + 1) - l.inorder.length = i + 1 := by omega
      refine ⟨hm, i + (l.inorder.length + 1), congrArg (Option.map _) hi, ?_⟩
      rw [List.getElem?_append_right (by omega), hsub, List.getElem?_cons_succ, hget]
    | eq =>
      rw [hcmp] at h
      obtain rfl := Option.some.inj (Option.some.inj h)
      exact ⟨hfreed, l.inorder.length, rfl, by simp⟩

theorem removeIn_nodes {freed : List ℕ} {map map' : ObjMap} {key : Text}
    (h : removeIn rb freed map key = some map') :
    map' = map ∨ ∃ i m, map.nodes[i]? = some m ∧ m.2.2.addr ∉ freed ∧
      map'.nodes = map.nodes.eraseIdx i := by
  rw [removeIn] at h
  split at h
  · cases h
  · exact .inl (Option.some.inj h).symm
  · next m hsearch =>
      obtain ⟨hm, i, hi, hget⟩ := searchIn_some hsearch
      have hdel : (map.tree.del rb key).entries = map.nodes.eraseIdx i :=
        RbTreeMap.entries_del_of_position rb hi
      refine .inr ⟨i, m, hget, hm, ?_⟩
      rw [Rbmap.removeAt] at h
      split_ifs at h
      · obtain ⟨later, -, rfl⟩ := Option.map_eq_some_iff.mp h
        exact hdel
      · obtain rfl := Option.some.inj h
        exact hdel

theorem mem_of_removeIn {freed : List ℕ} {map map' : ObjMap} {key : Text} {n : ObjNode}
    (h : removeIn rb freed map key = some map') (hn : n ∈ map'.nodes) : n ∈ map.nodes := by
  rcases removeIn_nodes h with rfl | ⟨i, m, -, -, hnodes⟩
  · exact hn
  · exact List.mem_of_mem_eraseIdx (hnodes ▸ hn)

theorem stays_of_removeIn {freed : List ℕ} {map map' : ObjMap} {key : Text} {n : ObjNode}
    (h : removeIn rb freed map key = some map') (hn : n ∈ map.nodes) (hfreed : n.2.2.addr ∈ freed) :
    n ∈ map'.nodes := by
  rcases removeIn_nodes h with rfl | ⟨i, m, hget, hm, hnodes⟩
  · exact hn
  · obtain ⟨hlt, hei⟩ := List.getElem?_eq_some_iff.mp hget
    have hperm : List.Perm map.nodes (m :: map.nodes.eraseIdx i) :=
      hei ▸ (List.getElem_cons_eraseIdx_perm hlt).symm
    rcases List.mem_cons.mp (hperm.subset hn) with rfl | hmem
    · exact absurd hfreed hm
    · exact hnodes ▸ hmem

/-- The map holds a freed object. -/
def Sweep.Stained (s : Sweep) : Prop := ∃ n ∈ s.map.nodes, n.2.2.addr ∈ s.freed

theorem Sweep.Stained.next {s t : Sweep} (hs : s.Stained) (h : releaseTurn rb fd s = .next t) :
    t.Stained := by
  obtain ⟨n, hn, hfreed⟩ := hs
  obtain ⟨p, n', -, -, -, -, ⟨-, hmap, hfree⟩ | ⟨-, hrem, hfree⟩⟩ := releaseTurn_cases h
  · exact ⟨n, hmap ▸ hn, hfree ▸ hfreed⟩
  · exact ⟨n, stays_of_removeIn hrem hn hfreed, hfree ▸ List.mem_cons_of_mem _ hfreed⟩

theorem Sweep.Stained.not_clean {s : Sweep} (hs : s.Stained) (objs : List BusObject) (fd : ℤ) :
    ¬s.Clean objs fd := by
  obtain ⟨n, hn, hfreed⟩ := hs
  exact fun h ↦ h.valid n.2.2 (List.mem_map_of_mem hn) hfreed

/-- The traversal has not changed anything yet, and `todo` is still ahead. -/
structure Sweep.Ahead (s : Sweep) (map : ObjMap) (todo : List ObjNode) : Prop where
  map_eq : s.map = map
  freed_eq : s.freed = []
  split : ∃ past, map.nodes = past ++ todo
  cur_eq : s.cur = todo.head?.map Rbmap.addr

theorem Busd.ahead (busd : Busd) : busd.sweep.Ahead busd.map busd.map.nodes := by
  refine ⟨rfl, rfl, ⟨[], rfl⟩, ?_⟩
  rw [← List.head?_map]
  exact busd.repr.begin_eq

theorem Sweep.Ahead.at_head {s : Sweep} {map : ObjMap} {n : ObjNode} {todo : List ObjNode}
    (hs : s.Ahead map (n :: todo)) (hnodup : (map.nodes.map Rbmap.addr).Nodup) :
    s.cur = some (Rbmap.addr n) ∧ s.map.tree.root.at? Rbmap.addr (Rbmap.addr n) = some n ∧
      Rbmap.rb_next s.map.tree (Rbmap.addr n) = some (todo.head?.map Rbmap.addr) := by
  obtain ⟨past, hsplit⟩ := hs.split
  have hinorder : map.tree.root.inorder = past ++ n :: todo := hsplit
  refine ⟨hs.cur_eq, ?_, ?_⟩
  · rw [hs.map_eq]
    exact Tree.at?_of_split hnodup hinorder
  · rw [hs.map_eq, Rbmap.rb_next, Tree.next?_of_split hnodup hinorder, Option.map_some]

theorem Sweep.Ahead.pass (rb : Rebalance ObjNode) {s : Sweep} {map : ObjMap} {n : ObjNode}
    {todo : List ObjNode} (hs : s.Ahead map (n :: todo)) (hnodup : (map.nodes.map Rbmap.addr).Nodup)
    (hfd : n.2.2.fd ≠ fd) : ∃ t, releaseTurn rb fd s = .next t ∧ t.Ahead map todo := by
  obtain ⟨hcur, hat, hnext⟩ := hs.at_head hnodup
  refine ⟨{ s with cur := todo.head?.map Rbmap.addr }, ?_, hs.map_eq, hs.freed_eq, ?_, rfl⟩
  · rw [releaseTurn, hcur]
    dsimp only
    rw [hat]
    dsimp only
    rw [if_neg (by simp [hs.freed_eq]), if_pos hfd, Sweep.next, hnext]
  · obtain ⟨past, hsplit⟩ := hs.split
    exact ⟨past ++ [n], by simpa using hsplit⟩

theorem Sweep.Ahead.stain {s t : Sweep} {map : ObjMap} {n : ObjNode} {todo : List ObjNode}
    (hs : s.Ahead map (n :: todo)) (hnodup : (map.nodes.map Rbmap.addr).Nodup)
    (hfd : n.2.2.fd = fd) (h : releaseTurn rb fd s = .next t) : t.Stained := by
  obtain ⟨hcur, hat, -⟩ := hs.at_head hnodup
  obtain ⟨p, n', hp, hn', -, hnext, hcase⟩ := releaseTurn_cases h
  obtain rfl : p = Rbmap.addr n := Option.some.inj (hp.symm.trans hcur)
  obtain rfl : n' = n := Option.some.inj (hn'.symm.trans hat)
  rcases hcase with ⟨hne, -, -⟩ | ⟨-, hrem, hfree⟩
  · exact absurd hfd hne
  · obtain ⟨later, hlater, -⟩ := Option.map_eq_some_iff.mp hnext
    obtain ⟨m, hm, haddr⟩ := Tree.mem_of_next? hlater
    -- The node is still there, since there is no other at its address.
    have hself : m = n' := by
      obtain ⟨past, hsplit⟩ := hs.split
      have hmem : m ∈ map.nodes := hs.map_eq ▸ mem_of_removeIn hrem hm
      have hmem' : n' ∈ map.nodes := by simp [hsplit]
      exact List.inj_on_of_nodup_map hnodup hmem hmem' haddr
    exact ⟨m, hm, by simp [hself, hfree]⟩

theorem Sweep.Ahead.done (rb : Rebalance ObjNode) {s : Sweep} {map : ObjMap} {todo : List ObjNode}
    (hs : s.Ahead map todo) (hnodup : (map.nodes.map Rbmap.addr).Nodup)
    (hfd : ∀ n ∈ todo, n.2.2.fd ≠ fd) :
    ∃ k t, Machine.after (releaseTurn rb fd) k s = .done t ∧ t.Ahead map [] := by
  induction todo generalizing s with
  | nil =>
    have hdone : releaseTurn rb fd s = .done s := by
      rw [releaseTurn, hs.cur_eq]
      rfl
    exact ⟨1, s, by rw [Machine.after, hdone], hs⟩
  | cons n todo ih =>
    obtain ⟨t, hmove, ht⟩ := hs.pass rb hnodup (hfd n List.mem_cons_self)
    obtain ⟨k, t', hk, ht'⟩ := ih ht fun m hm ↦ hfd m (List.mem_cons_of_mem n hm)
    exact ⟨k + 1, t', (Machine.after_succ_of_next hmove k).trans hk, ht'⟩

end Traversal

/-- A connection is released as it should exactly if it has nothing to be released. -/
theorem releases_iff (rb : Rebalance ObjNode) (busd : Busd) (fd : ℤ) :
    Releases rb busd fd ↔ ∀ o ∈ busd.map.objects, o.fd ≠ fd := by
  have hnodup := busd.repr.nodup
  constructor
  · rintro ⟨k, s, hdone, hclean⟩
    by_contra hsome
    push Not at hsome
    obtain ⟨o, ho, hfd⟩ := hsome
    obtain ⟨m, hm, rfl⟩ := List.mem_map.mp ho
    -- Up to the first object of the connection nothing changes; then one is freed and stays.
    let P (t : Sweep) : Prop :=
      t.Stained ∨ ∃ todo, t.Ahead busd.map todo ∧ ∃ n ∈ todo, n.2.2.fd = fd
    have hnext (t u : Sweep) (ht : P t) (hmove : releaseTurn rb fd t = .next u) : P u := by
      rcases ht with ht | ⟨todo, hahead, n, hn, hnfd⟩
      · exact .inl (ht.next hmove)
      · cases todo with
        | nil => cases hn
        | cons n' todo =>
          by_cases hfd' : n'.2.2.fd = fd
          · exact .inl (hahead.stain hnodup hfd' hmove)
          · obtain ⟨u', hmove', hu'⟩ := hahead.pass rb hnodup hfd'
            obtain rfl : u' = u := Move.next.inj (hmove'.symm.trans hmove)
            refine .inr ⟨todo, hu', n, ?_, hnfd⟩
            rcases List.mem_cons.mp hn with rfl | hn
            · exact absurd hnfd hfd'
            · exact hn
    obtain ⟨t, ht, hmove⟩ :=
      Machine.last_of_done hnext (.inr ⟨_, busd.ahead, m, hm, hfd⟩) hdone
    obtain ⟨hcur, rfl⟩ := releaseTurn_done hmove
    rcases ht with ht | ⟨todo, hahead, n, hn, -⟩
    · exact ht.not_clean _ fd hclean
    · have hempty : todo.head? = none := Option.map_eq_none_iff.mp (hahead.cur_eq.symm.trans hcur)
      rw [List.head?_eq_none_iff.mp hempty] at hn
      cases hn
  · intro hfd
    have hnodes (n : ObjNode) (hn : n ∈ busd.map.nodes) : n.2.2.fd ≠ fd :=
      hfd n.2.2 (List.mem_map_of_mem hn)
    obtain ⟨k, s, hk, hs⟩ := busd.ahead.done rb hnodup hnodes
    refine ⟨k, s, hk, ?_, ?_⟩
    · rw [hs.map_eq, List.filter_eq_self.mpr (by simpa using hfd)]
    · simp [hs.freed_eq]

/-- Two connections that have registered one id. -/
def twins : Busd := registered (.small _) [([97], 4), ([97], 5)]

/-- The object of connection 4 is the one taken out, and the freed one of connection 5 stays. -/
theorem not_releases : ¬Releases (.small _) twins 5 := by
  rintro ⟨n, s, hdone, hclean⟩
  have hrun : ∃ t, Machine.after (releaseTurn (.small _) 5) 2 twins.sweep = .done t ∧
      ⟨1, [97], 5⟩ ∈ t.map.objects ∧ 1 ∈ t.freed := ⟨_, rfl, by decide, by decide⟩
  obtain ⟨t, ht, hmem, hfreed⟩ := hrun
  obtain rfl := Machine.done_unique hdone ht
  exact hclean.valid _ hmem hfreed

end Libobject.Bus
