import Libobject.Lib.Refine
import Libobject.Event.Timer
import Mathlib.Algebra.GroupWithZero.Nat

/-!
# The registries of events

The base keeps the events of descriptors and those of signals in two maps, under their numbers; the
former are also given to `select` and to the timer. An event is taken out by its number alone. A
caught signal runs the handlers of a list that is made before the first of them is called.
-/

namespace Libobject.Event

open Std

/-- What the caller has filled in; all pure timers have the descriptor that `-1` is as a key. -/
structure EventKey where
  ev_fd : ℕ
  ev_signal : Bool
  ev_persist : Bool
  deriving DecidableEq

abbrev NumberMap := RbTreeMap (compare : ℕ → ℕ → Ordering) ℕ

structure Registries where
  mem : Memory
  timer : RbtreeTimer
  io_map : NumberMap
  sig_map : NumberMap

def FD_SETSIZE : ℕ := 1024

/-- The sets of `select` have room for a descriptor, or it is negative and they are left alone. -/
def Selectable (fd : ℕ) : Prop := fd < FD_SETSIZE ∨ 2 ^ 63 ≤ fd

instance (fd : ℕ) : Decidable (Selectable fd) := inferInstanceAs (Decidable (_ ∨ _))

namespace Registries

variable (ev : ℕ → EventKey) (rt : Rebalance TimerNode) (rb : Rebalance (ℕ × ℕ))

/-- The memory of the events may hold anything. -/
def init (mem : Memory) : Registries := ⟨mem, .init, .empty, .empty⟩

/-- The caller fills in the interval, the clock is read if it is positive. -/
def add (r : Registries) (e : ℕ) (ev_timeout : Timeval) (now : Clock) : Option Registries :=
  if (ev e).ev_signal then some { r with sig_map := r.sig_map.add rb (ev e).ev_fd e }
  else if Selectable (ev e).ev_fd then
    let mem := Function.update r.mem e ⟨(ev e).ev_fd, (ev e).ev_persist, ev_timeout, ev_timeout⟩
    let added := r.timer.add rt now mem e
    some { r with mem := added.1, timer := added.2, io_map := r.io_map.add rb (ev e).ev_fd e }
  else none

def evsig_del (map : NumberMap) (e : ℕ) : NumberMap := map.del rb (ev e).ev_fd

def del (r : Registries) (e : ℕ) : Option Registries :=
  if (ev e).ev_signal then some { r with sig_map := evsig_del ev rb r.sig_map e }
  else if Selectable (ev e).ev_fd then
    (r.timer.del rt r.mem e).map fun timer ↦
      { r with timer := timer, io_map := r.io_map.del rb (ev e).ev_fd }
  else none

/-- The handler of an event runs, and deletes the event itself if it is one of `leaving`. -/
def signal_list_for_each_callback (leaving : ℕ → Bool) (map : NumberMap) (e : ℕ) : NumberMap :=
  let map := if leaving e then evsig_del ev rb map e else map
  if (ev e).ev_persist then map else evsig_del ev rb map e

/-- The events whose handlers are called, one after the other. -/
def activate_signal (leaving : ℕ → Bool) (r : Registries) (fd : ℕ) : Registries × List ℕ :=
  let list := r.sig_map.search_all_same_key fd
  ({ r with sig_map := list.foldl (signal_list_for_each_callback ev rb leaving) r.sig_map }, list)

end Registries

inductive Request
  | add (event : ℕ) (ev_timeout : Timeval) (now : Clock)
  | del (event : ℕ)
  | signal (fd : ℕ) (leaving : List ℕ)
  deriving DecidableEq

/-- The events that are called, and those that the two maps hold behind the request. -/
structure Reply where
  called : List ℕ
  io : List (ℕ × ℕ)
  sig : List (ℕ × ℕ)
  deriving DecidableEq

namespace Registries

variable (ev : ℕ → EventKey) (rt : Rebalance TimerNode) (rb : Rebalance (ℕ × ℕ))

def serve (r : Registries) : Request → Option (Registries × List ℕ)
  | .add e ev_timeout now => (r.add ev rt rb e ev_timeout now).map (·, [])
  | .del e => (r.del ev rt rb e).map (·, [])
  | .signal fd leaving => some (r.activate_signal ev rb (fun e ↦ leaving.contains e) fd)

def call (r : Registries) (q : Request) : Option (Registries × Reply) :=
  (r.serve ev rt rb q).map fun s ↦ (s.1, ⟨s.2, s.1.io_map.entries, s.1.sig_map.entries⟩)

end Registries

/-! ## What the registries are for -/

/-- The events that were added and not deleted yet. -/
structure Registered where
  io : List ℕ
  sig : List ℕ
  deriving DecidableEq

namespace Registered

variable (ev : ℕ → EventKey)

def empty : Registered := ⟨[], []⟩

/-- A signal takes out its events that are not persistent, and those that leave by themselves. -/
def Goes (fd : ℕ) (leaving : List ℕ) (e : ℕ) : Prop :=
  (ev e).ev_fd = fd ∧ ((ev e).ev_persist = false ∨ e ∈ leaving)

instance decidableGoes (fd : ℕ) (leaving : List ℕ) (e : ℕ) : Decidable (Goes ev fd leaving e) :=
  inferInstanceAs (Decidable (_ ∧ _))

def next (a : Registered) : Request → Registered
  | .add e _ _ =>
    if (ev e).ev_signal then { a with sig := e :: a.sig } else { a with io := e :: a.io }
  | .del e =>
    if (ev e).ev_signal then { a with sig := a.sig.erase e } else { a with io := a.io.erase e }
  | .signal fd leaving => { a with sig := a.sig.filter fun e ↦ ¬Goes ev fd leaving e }

/-- The handlers to be called. -/
def handlers (a : Registered) : Request → List ℕ
  | .signal fd _ => a.sig.filter fun e ↦ (ev e).ev_fd = fd
  | _ => []

/-- An event as it lies in its map. -/
def entry (e : ℕ) : ℕ × ℕ := ((ev e).ev_fd, e)

/-- Each handler of the signal is called once, and the maps hold just the registered events. -/
def spec : Spec Registered Request Reply where
  ok a q o := o.called.Perm (a.handlers ev q) ∧ o.io.Perm ((a.next ev q).io.map (entry ev)) ∧
    o.sig.Perm ((a.next ev q).sig.map (entry ev))
  next a q _ := a.next ev q

instance decidableOk (a : Registered) (q : Request) (o : Reply) :
    Decidable ((spec ev).ok a q o) :=
  inferInstanceAs (Decidable (_ ∧ _))

end Registered

section Found

variable (ev : ℕ → EventKey) (rb : Rebalance (ℕ × ℕ))

/-- How often the handlers of a list lead to a deletion. -/
def deletions (leaving : List ℕ) (list : List ℕ) : ℕ :=
  (list.map fun e ↦ (if e ∈ leaving then 1 else 0) + if (ev e).ev_persist then 0 else 1).sum

/-- What is taken out by its number is what should go, and the timer comes to a node or is not
asked. -/
def Found (r : Registries) : Request → Prop
  | .add e _ _ => (ev e).ev_signal ∨ Selectable (ev e).ev_fd
  | .del e =>
    (∀ e' ∈ (if (ev e).ev_signal then r.sig_map else r.io_map).search (ev e).ev_fd, e' = e) ∧
    ((ev e).ev_signal ∨ Selectable (ev e).ev_fd ∧
      (timeval_cmp (r.mem e).ev_timeout .zero = .gt →
        (r.timer.search r.mem (r.mem e).ev_timeout).isSome))
  | .signal fd leaving =>
    (r.sig_map.taken rb fd (deletions ev leaving (r.sig_map.search_all_same_key fd))).Perm
      ((r.sig_map.search_all_same_key fd).filter fun e ↦ Registered.Goes ev fd leaving e)

instance decidableFound (r : Registries) : (q : Request) → Decidable (Found ev rb r q)
  | .add _ _ _ => inferInstanceAs (Decidable (_ ∨ _))
  | .del _ => inferInstanceAs (Decidable ((∀ e' ∈ _, _) ∧ _))
  | .signal _ _ => inferInstanceAs (Decidable (List.Perm _ _))

end Found

section Simulation

variable {ev : ℕ → EventKey} (rb : Rebalance (ℕ × ℕ)) {map : NumberMap} {xs : List ℕ}

/-- A map holds the events of a list. -/
def Holds (ev : ℕ → EventKey) (map : NumberMap) (xs : List ℕ) : Prop :=
  map.entries.Perm (xs.map (Registered.entry ev))

theorem Holds.add (h : Holds ev map xs) (e : ℕ) :
    Holds ev (map.add rb (ev e).ev_fd e) (e :: xs) :=
  (RbTreeMap.entries_add rb map (ev e).ev_fd e).trans (h.cons (Registered.entry ev e))

theorem Holds.mem (h : Holds ev map xs) {k e : ℕ} (hmem : (k, e) ∈ map.entries) :
    (ev e).ev_fd = k ∧ e ∈ xs := by
  obtain ⟨e', he', heq⟩ := List.mem_map.mp (h.mem_iff.mp hmem)
  cases heq
  exact ⟨rfl, he'⟩

theorem Holds.del (h : Holds ev map xs) {e : ℕ}
    (hfound : ∀ e' ∈ map.search (ev e).ev_fd, e' = e) :
    Holds ev (map.del rb (ev e).ev_fd) (xs.erase e) := by
  cases hsearch : map.search (ev e).ev_fd with
  | none =>
    have hnot : e ∉ xs := fun hmem ↦ RbTreeMap.search_none hsearch (Registered.entry ev e)
      (h.mem_iff.mpr (List.mem_map_of_mem hmem)) compare_self
    rw [RbTreeMap.del_of_search_none rb hsearch, List.erase_of_not_mem hnot]
    exact h
  | some e' =>
    obtain rfl := hfound e' hsearch
    obtain ⟨k, hk, hdel⟩ := RbTreeMap.entries_del rb hsearch
    obtain rfl := LawfulEqCmp.eq_of_compare hk
    have hmem : e' ∈ xs := (h.mem (hdel.mem_iff.mpr List.mem_cons_self)).2
    have hxs := (List.perm_cons_erase hmem).map (Registered.entry ev)
    exact (hdel.symm.trans (h.trans hxs)).cons_inv

theorem Holds.perm_search_all (h : Holds ev map xs) (fd : ℕ) :
    (map.search_all_same_key fd).Perm (xs.filter fun e ↦ (ev e).ev_fd = fd) := by
  refine (map.perm_search_all_same_key fd).trans ?_
  have hfilter := (h.filter fun x ↦ compare fd x.1 = .eq).map Prod.snd
  refine hfilter.trans (List.Perm.of_eq ?_)
  rw [List.filter_map, List.map_map]
  have hid : Prod.snd ∘ Registered.entry ev = id := rfl
  rw [hid, List.map_id]
  refine List.filter_congr fun e _ ↦ decide_eq_decide.mpr ?_
  exact Nat.compare_eq_eq.trans eq_comm

theorem foldl_callback {fd : ℕ} {leaving list : List ℕ} (hfd : ∀ e ∈ list, (ev e).ev_fd = fd)
    (map : NumberMap) :
    list.foldl (Registries.signal_list_for_each_callback ev rb fun e ↦ leaving.contains e) map =
      map.dels rb fd (deletions ev leaving list) := by
  induction list generalizing map with
  | nil => rfl
  | cons e list ih =>
    obtain ⟨he, hlist⟩ := List.forall_mem_cons.mp hfd
    have hone : Registries.signal_list_for_each_callback ev rb (fun e ↦ leaving.contains e) map e =
        map.dels rb fd
          ((if e ∈ leaving then 1 else 0) + if (ev e).ev_persist then 0 else 1) := by
      unfold Registries.signal_list_for_each_callback Registries.evsig_del
      rw [he]
      cases (ev e).ev_persist <;> by_cases hmem : e ∈ leaving <;> simp [hmem, RbTreeMap.dels]
    have hsum : deletions ev leaving (e :: list) =
        ((if e ∈ leaving then 1 else 0) + if (ev e).ev_persist then 0 else 1) +
          deletions ev leaving list := List.sum_cons
    rw [List.foldl_cons, hone, ih hlist, hsum, Nat.add_comm _ (deletions ev leaving list)]
    exact (Function.iterate_add_apply _ _ _ _).symm

theorem Holds.signal (h : Holds ev map xs) {fd : ℕ} {leaving : List ℕ} {n : ℕ}
    (htaken : (map.taken rb fd n).Perm
      ((map.search_all_same_key fd).filter fun e ↦ Registered.Goes ev fd leaving e)) :
    Holds ev (map.dels rb fd n) (xs.filter fun e ↦ ¬Registered.Goes ev fd leaving e) := by
  have hgoes : (map.taken rb fd n).Perm (xs.filter fun e ↦ Registered.Goes ev fd leaving e) := by
    refine (htaken.trans ((h.perm_search_all fd).filter _)).trans (List.Perm.of_eq ?_)
    rw [List.filter_filter]
    refine List.filter_congr fun e _ ↦ ?_
    by_cases hg : Registered.Goes ev fd leaving e
    · simp [hg, hg.1]
    · simp [hg]
  have hkeys : (xs.filter fun e ↦ Registered.Goes ev fd leaving e).map (fd, ·) =
      (xs.filter fun e ↦ Registered.Goes ev fd leaving e).map (Registered.entry ev) := by
    refine List.map_congr_left fun e he ↦ ?_
    have hg := of_decide_eq_true (List.mem_filter.mp he).2
    rw [Registered.entry, hg.1]
  have hsplit : (xs.map (Registered.entry ev)).Perm
      ((xs.filter fun e ↦ Registered.Goes ev fd leaving e).map (Registered.entry ev) ++
        (xs.filter fun e ↦ ¬Registered.Goes ev fd leaving e).map (Registered.entry ev)) := by
    rw [← List.map_append]
    refine (List.Perm.map _ ?_).symm
    simpa using List.filter_append_perm (fun e ↦ decide (Registered.Goes ev fd leaving e)) xs
  have hall := ((map.entries_dels rb fd n).symm.trans h).trans hsplit
  have hfront := (hgoes.map (fd, ·)).append_right (map.dels rb fd n).entries
  rw [hkeys] at hfront
  exact (List.perm_append_left_iff _).mp (hfront.symm.trans hall)

theorem RbtreeTimer.Linked.add (rt : Rebalance TimerNode) {t : RbtreeTimer} (h : t.Linked)
    (now : Clock) (mem : Memory) (e : ℕ) : (t.add rt now mem e).2.Linked := by
  rw [RbtreeTimer.add]
  split
  · exact (h.insert rt _ e).1
  · exact h

theorem RbtreeTimer.Linked.del (rt : Rebalance TimerNode) {t : RbtreeTimer} (h : t.Linked)
    {mem : Memory} {e : ℕ} (hfound : timeval_cmp (mem e).ev_timeout .zero = .gt →
      (t.search mem (mem e).ev_timeout).isSome) :
    ∃ t', t.del rt mem e = some t' ∧ t'.Linked := by
  rw [RbtreeTimer.del]
  split
  · next hpos =>
      obtain ⟨i, hi⟩ := Option.isSome_iff_exists.mp (hfound hpos)
      obtain ⟨n, hn, -⟩ := Tree.find_some hi
      obtain ⟨t', ht', hlinked, -⟩ := h.delete rt hn
      exact ⟨t', by rw [hi]; exact ht', hlinked⟩
  · exact ⟨t, rfl, h⟩

/-- What is kept on the way: the timer can be worked on, and the maps hold the events. -/
structure Keeps (ev : ℕ → EventKey) (r : Registries) (a : Registered) : Prop where
  timer : r.timer.Linked
  io : Holds ev r.io_map a.io
  sig : Holds ev r.sig_map a.sig

theorem call_spec (rt : Rebalance TimerNode) {r : Registries} {a : Registered} (h : Keeps ev r a)
    {q : Request} (hq : Found ev rb r q) :
    ∃ r' o, r.call ev rt rb q = some (r', o) ∧ (Registered.spec ev).ok a q o ∧
      Keeps ev r' (a.next ev q) := by
  have key : ∃ r' called, r.serve ev rt rb q = some (r', called) ∧
      called.Perm (a.handlers ev q) ∧ Keeps ev r' (a.next ev q) := by
    cases q with
    | add e ev_timeout now =>
      simp only [Registries.serve, Registries.add, Registered.next]
      by_cases hsignal : (ev e).ev_signal
      · rw [if_pos hsignal, if_pos hsignal]
        exact ⟨_, [], rfl, List.Perm.refl [], h.timer, h.io, h.sig.add rb e⟩
      · rw [if_neg hsignal, if_neg hsignal, if_pos (hq.resolve_left hsignal)]
        exact ⟨_, [], rfl, List.Perm.refl [], h.timer.add rt now _ e, h.io.add rb e, h.sig⟩
    | del e =>
      obtain ⟨hmap, htimer⟩ := hq
      simp only [Registries.serve, Registries.del, Registered.next]
      by_cases hsignal : (ev e).ev_signal
      · rw [if_pos hsignal] at hmap
        rw [if_pos hsignal, if_pos hsignal]
        exact ⟨_, [], rfl, List.Perm.refl [], h.timer, h.io, h.sig.del rb hmap⟩
      · rw [if_neg hsignal] at hmap
        obtain ⟨hselect, hsearch⟩ := htimer.resolve_left hsignal
        obtain ⟨timer, hdel, hlinked⟩ := h.timer.del rt hsearch
        rw [if_neg hsignal, if_neg hsignal, if_pos hselect, hdel]
        exact ⟨_, [], rfl, List.Perm.refl [], hlinked, h.io.del rb hmap, h.sig⟩
    | signal fd leaving =>
      have hfd : ∀ e ∈ r.sig_map.search_all_same_key fd, (ev e).ev_fd = fd := fun e he ↦
        of_decide_eq_true (List.mem_filter.mp ((h.sig.perm_search_all fd).mem_iff.mp he)).2
      refine ⟨_, _, rfl, h.sig.perm_search_all fd, h.timer, h.io, ?_⟩
      simp only [foldl_callback rb hfd]
      exact h.sig.signal rb hq
  obtain ⟨r', called, hserve, hcalled, hkeeps⟩ := key
  refine ⟨r', ⟨called, r'.io_map.entries, r'.sig_map.entries⟩, ?_, ⟨hcalled, hkeeps.io, hkeeps.sig⟩,
    hkeeps⟩
  rw [Registries.call, hserve]
  rfl

/-- On every run on which what is taken out by its number is what should go, the maps hold the
events that were added and not deleted, and each handler of a signal is called once. -/
theorem registries_refine (ev : ℕ → EventKey) (rt : Rebalance TimerNode) (rb : Rebalance (ℕ × ℕ))
    (mem : Memory) {es : List Request}
    (hrun : Refine.Within (Registries.call ev rt rb) (Registered.spec ev) (Found ev rb) (.init mem)
      .empty es) :
    Refine.Refines (Registries.call ev rt rb) (Registered.spec ev) (.init mem) .empty es := by
  have hempty : Holds ev RbTreeMap.empty [] := List.Perm.refl []
  refine (Refine.refines_of_simulation (I := Keeps ev) ?_ (c := Registries.init mem)
    (a := Registered.empty) ⟨RbtreeTimer.linked_init, hempty, hempty⟩ hrun).2
  exact fun r a q hkeeps hq ↦ call_spec rb rt hkeeps hq

end Simulation

/-- The events 0 and 1 are timers without a descriptor, 2 and 3 wait for signal 10, the latter once.
-/
def sampleEvents : ℕ → EventKey
  | 0 => ⟨2 ^ 64 - 1, false, true⟩
  | 1 => ⟨2 ^ 64 - 1, false, false⟩
  | 2 => ⟨10, true, true⟩
  | _ => ⟨10, true, false⟩

def atStart : Clock := ⟨0, 0, Nat.succ_pos _⟩

def blank : Memory := fun _ ↦ ⟨0, false, .zero, .zero⟩

theorem registries_refine_few :
    Refine.Refines (Registries.call sampleEvents (.small _) (.small _))
      (Registered.spec sampleEvents) (.init blank) .empty
      [.add 0 ⟨5, 0⟩ atStart, .del 0, .add 1 .zero atStart, .add 3 .zero atStart,
        .signal 10 [], .add 2 .zero atStart, .signal 10 []] :=
  registries_refine sampleEvents (.small _) (.small _) blank (by decide)

/-- Of two timers, the one that is deleted second is found first. -/
theorem not_registries_refine : ¬∀ (rt : Rebalance TimerNode) (rb : Rebalance (ℕ × ℕ))
    (ev : ℕ → EventKey) (mem : Memory) (es : List Request),
      Refine.Refines (Registries.call ev rt rb) (Registered.spec ev) (.init mem) .empty es := by
  intro h
  have hrun := h (.small _) (.small _) sampleEvents blank
    [.add 0 ⟨5, 0⟩ atStart, .add 1 ⟨7, 0⟩ atStart, .del 1]
  revert hrun
  decide

end Libobject.Event
