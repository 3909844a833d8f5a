import Libobject.Lib.Refine
import Libobject.Event.Timer

/-!
# The event base

The base arms the timer for the events that are added, runs their callbacks when a descriptor is
ready or a deadline has passed, and arms persistent events anew. What a callback does to the base
comes between its start and its return.
-/

namespace Libobject.Event

open Std

/-- What has started a callback that has not returned yet. -/
inductive Started
  | activate_io
  | process_timeout
  deriving DecidableEq

structure EventBase where
  mem : Memory
  timer : RbtreeTimer
  io_map : RbTreeMap (compare : ℕ → ℕ → Ordering) ℕ
  running : List (ℕ × Started)

/-- The caller of `add` fills the event first; the clock is read where the code reads it. -/
inductive Call
  | add (event : ℕ) (ev_fd : ℕ) (ev_persist : Bool) (ev_timeout : Timeval) (now : Clock)
  | del (event : ℕ)
  | activate_io (fd : ℕ)
  | process_timeout_events (now : Clock)
  | callback_returns (now : Clock)
  | timeout_next (now : Clock)
  | first
  deriving DecidableEq

/-- The event whose callback starts or which `first` gives, the time to wait, and what the timer
holds behind the call. -/
structure Answer where
  event : Option ℕ
  delay : Option Timeval
  holds : List (ℕ × Timeval)
  deriving DecidableEq

namespace EventBase

variable (rb : Rebalance TimerNode) (rio : Rebalance (ℕ × ℕ))

/-- A base for events that lie in memory with anything in them. -/
def init (mem : Memory) : EventBase := ⟨mem, .init, .empty, []⟩

def holds (b : EventBase) : List (ℕ × Timeval) :=
  b.timer.nodes.map fun n ↦ (n.value, b.mem.key n)

def timer_add (now : Clock) (b : EventBase) (e : ℕ) : EventBase :=
  { b with mem := (b.timer.add rb now b.mem e).1, timer := (b.timer.add rb now b.mem e).2 }

def timer_del (b : EventBase) (e : ℕ) : Option EventBase :=
  (b.timer.del rb b.mem e).map fun timer ↦ { b with timer := timer }

def timer_remove (b : EventBase) (e : ℕ) : Option EventBase :=
  (b.timer.remove rb b.mem e).map fun timer ↦ { b with timer := timer }

def add (now : Clock) (b : EventBase) (e : ℕ) (ev : EventT) : EventBase :=
  timer_add rb now
    { b with mem := Function.update b.mem e { ev with ev_tv := ev.ev_timeout },
             io_map := b.io_map.add rio ev.ev_fd e } e

def del (b : EventBase) (e : ℕ) : Option EventBase :=
  (b.timer_del rb e).map fun b ↦ { b with io_map := b.io_map.del rio (b.mem e).ev_fd }

/-- The interval goes back to where the deadline stands, and the event is armed again. -/
def rearm (now : Clock) (b : EventBase) (e : ℕ) : EventBase :=
  timer_add rb now { b with mem := b.mem.setTimeout e (b.mem e).ev_tv } e

/-- The callback of the event that a search for the descriptor finds. -/
def activate_io (b : EventBase) (fd : ℕ) : EventBase × Option ℕ :=
  match b.io_map.search fd with
  | none => (b, none)
  | some e => ({ b with running := (e, .activate_io) :: b.running }, some e)

/-- The callback of the first event, if its deadline has passed. -/
def process_timeout_events (now : Clock) (b : EventBase) : Option (EventBase × Option ℕ) :=
  b.timer.first.map fun
    | none => (b, none)
    | some e =>
      if timeval_cmp now.timeval (b.mem e).ev_timeout = .lt then (b, none)
      else ({ b with running := (e, .process_timeout) :: b.running }, some e)

/-- What the two functions do behind the callback. -/
def finish (now : Clock) (b : EventBase) (e : ℕ) : Started → Option EventBase
  | .activate_io =>
    if (b.mem e).ev_persist then (b.timer_del rb e).map fun b ↦ b.rearm rb now e
    else b.del rb rio e
  | .process_timeout =>
    if (b.mem e).ev_persist then (b.timer_remove rb e).map fun b ↦ b.rearm rb now e
    else b.timer_del rb e

def callback_returns (now : Clock) (b : EventBase) : Option EventBase :=
  match b.running with
  | [] => some b
  | (e, started) :: running => finish rb rio now { b with running := running } e started

/-- A call with the event or the time that it gives. -/
def serve (b : EventBase) : Call → Option (EventBase × Option ℕ × Option Timeval)
  | .add e ev_fd ev_persist ev_timeout now =>
    some (add rb rio now b e ⟨ev_fd, ev_persist, ev_timeout, ev_timeout⟩, none, none)
  | .del e => (b.del rb rio e).map fun b ↦ (b, none, none)
  | .activate_io fd => some ((b.activate_io fd).1, (b.activate_io fd).2, none)
  | .process_timeout_events now =>
    (b.process_timeout_events now).map fun r ↦ (r.1, r.2, none)
  | .callback_returns now => (b.callback_returns rb rio now).map fun b ↦ (b, none, none)
  | .timeout_next now => (b.timer.timeout_next now b.mem).map fun tv ↦ (b, none, tv)
  | .first => b.timer.first.map fun e ↦ (b, e, none)

def call (b : EventBase) (c : Call) : Option (EventBase × Answer) :=
  (b.serve rb rio c).map fun r ↦ (r.1, ⟨r.2.1, r.2.2, r.1.holds⟩)

end EventBase

/-! ## Alarms -/

/-- What the timer is for: which events are armed, each with its deadline, and the interval and
the persistence that each was added with. -/
structure Alarms where
  armed : ℕ → Option Timeval
  interval : ℕ → Timeval
  persist : ℕ → Bool
  running : List ℕ

namespace Alarms

def init (mem : Memory) : Alarms :=
  ⟨fun _ ↦ none, fun e ↦ (mem e).ev_tv, fun e ↦ (mem e).ev_persist, []⟩

/-- Only a positive interval arms an event. -/
def deadline (now : Clock) (interval : Timeval) : Option Timeval :=
  if timeval_cmp interval .zero = .gt then some (interval.plus now.timeval) else none

def set (a : Alarms) (e : ℕ) (d : Option Timeval) : Alarms :=
  { a with armed := Function.update a.armed e d }

theorem set_armed_self (a : Alarms) (e : ℕ) (d : Option Timeval) : (a.set e d).armed e = d := by
  rw [set]
  exact Function.update_self e d a.armed

theorem set_armed_of_ne (a : Alarms) {e e' : ℕ} (h : e' ≠ e) (d : Option Timeval) :
    (a.set e d).armed e' = a.armed e' := by
  rw [set]
  exact Function.update_of_ne h d a.armed

def started (a : Alarms) : Option ℕ → Alarms
  | none => a
  | some e => { a with running := e :: a.running }

def next (a : Alarms) : Call → Answer → Alarms
  | .add e _ ev_persist ev_timeout now, _ =>
    { a with interval := Function.update a.interval e ev_timeout,
             persist := Function.update a.persist e ev_persist }.set e (deadline now ev_timeout)
  | .del e, _ => a.set e none
  | .activate_io _, o => a.started o.event
  | .process_timeout_events _, o => a.started o.event
  | .callback_returns now, _ =>
    match a.running with
    | [] => a
    | e :: running =>
      { a with running := running }.set e
        (if a.persist e then deadline now (a.interval e) else none)
  | .timeout_next _, _ => a
  | .first, _ => a

/-- An armed event, its deadline, and no armed event with an earlier one. -/
def Soonest (a : Alarms) (e : ℕ) (d : Timeval) : Prop :=
  a.armed e = some d ∧ ∀ e' d', a.armed e' = some d' → (timeval_cmp d d').isLE

/-- What a call may give, in the state before it. -/
def Gives (a : Alarms) : Call → Answer → Prop
  | .process_timeout_events now, o =>
    match o.event with
    | some e => ∃ d, a.Soonest e d ∧ timeval_cmp now.timeval d ≠ .lt
    | none => ∀ e d, a.armed e = some d → timeval_cmp now.timeval d = .lt
  | .timeout_next now, o =>
    match o.delay with
    | some tv => ∃ e d, a.Soonest e d ∧
        tv = if timeval_cmp d now.timeval = .gt then d.minus now.timeval else .zero
    | none => ∀ e, a.armed e = none
  | .first, o =>
    match o.event with
    | some e => ∃ d, a.Soonest e d
    | none => ∀ e, a.armed e = none
  | _, _ => True

/-- The timer holds the armed events with their deadlines, each once. -/
def Held (a : Alarms) (holds : List (ℕ × Timeval)) : Prop :=
  (holds.map Prod.fst).Nodup ∧ ∀ e d, (e, d) ∈ holds ↔ a.armed e = some d

def Allowed (a : Alarms) (c : Call) (o : Answer) : Prop :=
  a.Gives c o ∧ (a.next c o).Held o.holds

def spec : Spec Alarms Call Answer := ⟨Allowed, next⟩

end Alarms

namespace EventBase

/-- The event was never armed, or it is and no other armed event has its deadline. -/
def Deletable (b : EventBase) (e : ℕ) : Prop :=
  timeval_cmp (b.mem e).ev_timeout .zero ≠ .gt ∨
    b.timer.Armed e ∧ ∀ n ∈ b.timer.nodes, b.mem.key n = (b.mem e).ev_timeout → n.value = e

instance (b : EventBase) (e : ℕ) : Decidable (b.Deletable e) := inferInstanceAs (Decidable (_ ∨ _))

/-- If an interval is to be armed, its deadline can be held. -/
def Timely (interval : Timeval) (now : Clock) : Prop :=
  timeval_cmp interval .zero = .gt → interval.Adds now.timeval

instance (interval : Timeval) (now : Clock) : Decidable (Timely interval now) :=
  inferInstanceAs (Decidable (_ → _))

/-- Only events that are not armed are added; where an event is deleted or its callback returns,
it can be told from the others by its deadline; and no time overflows. -/
def Distinct (b : EventBase) : Call → Prop
  | .add e _ _ ev_timeout now => ¬ b.timer.Armed e ∧ Timely ev_timeout now
  | .del e => b.Deletable e
  | .callback_returns now => ∀ r ∈ b.running.head?, b.Deletable r.1 ∧
      ((b.mem r.1).ev_persist → Timely (b.mem r.1).ev_tv now)
  | .timeout_next now => ∀ n ∈ b.timer.nodes.head?,
      timeval_cmp (b.mem.key n) now.timeval = .gt → (b.mem.key n).Subtracts now.timeval
  | _ => True

instance decidableDistinct (b : EventBase) : (c : Call) → Decidable (b.Distinct c)
  | .add e _ _ ev_timeout now =>
    inferInstanceAs (Decidable (¬ b.timer.Armed e ∧ Timely ev_timeout now))
  | .del e => inferInstanceAs (Decidable (b.Deletable e))
  | .callback_returns _ => inferInstanceAs (Decidable (∀ r ∈ b.running.head?, _))
  | .activate_io _ => inferInstanceAs (Decidable True)
  | .process_timeout_events _ => inferInstanceAs (Decidable True)
  | .timeout_next _ => inferInstanceAs (Decidable (∀ n ∈ b.timer.nodes.head?, _))
  | .first => inferInstanceAs (Decidable True)

end EventBase

/-! ## The relation -/

/-- The timer's nodes are the armed events, and the fields of the events are what the alarms say of
them. -/
structure Tells (b : EventBase) (a : Alarms) : Prop where
  good : b.timer.Good b.mem
  armed : ∀ e d, a.armed e = some d ↔ b.timer.Armed e ∧ (b.mem e).ev_timeout = d
  positive : ∀ n ∈ b.timer.nodes, timeval_cmp (b.mem.key n) .zero = .gt
  interval : ∀ e, a.interval e = (b.mem e).ev_tv
  persist : ∀ e, a.persist e = (b.mem e).ev_persist
  running : b.running.map Prod.fst = a.running

namespace Tells

variable {b : EventBase} {a : Alarms} {e : ℕ}

theorem init (mem : Memory) : Tells (.init mem) (.init mem) where
  good := RbtreeTimer.good_init mem
  armed := by simp [Alarms.init, EventBase.init, RbtreeTimer.Armed, RbtreeTimer.nodes,
    RbtreeTimer.init]
  positive := by simp [EventBase.init, RbtreeTimer.nodes, RbtreeTimer.init]
  interval _ := rfl
  persist _ := rfl
  running := rfl

theorem held (h : Tells b a) : a.Held b.holds := by
  constructor
  · have hvalues := h.good.values
    rwa [EventBase.holds, List.map_map]
  · intro e d
    rw [h.armed, EventBase.holds, List.mem_map]
    constructor
    · rintro ⟨n, hn, heq⟩
      cases heq
      exact ⟨⟨n, hn, rfl⟩, rfl⟩
    · rintro ⟨⟨n, hn, rfl⟩, rfl⟩
      exact ⟨n, hn, rfl⟩

theorem soonest (h : Tells b a) {n : TimerNode} (hn : n ∈ b.timer.nodes)
    (hmin : ∀ m ∈ b.timer.nodes, (timeval_cmp (b.mem.key n) (b.mem.key m)).isLE) :
    a.Soonest n.value (b.mem.key n) := by
  refine ⟨(h.armed _ _).mpr ⟨⟨n, hn, rfl⟩, rfl⟩, ?_⟩
  intro e' d' harmed
  obtain ⟨⟨m, hm, rfl⟩, rfl⟩ := (h.armed e' d').mp harmed
  exact hmin m hm

theorem none_armed (h : Tells b a) (hnodes : b.timer.nodes = []) (e : ℕ) : a.armed e = none := by
  rw [Option.eq_none_iff_forall_ne_some]
  intro d hd
  obtain ⟨⟨n, hn, -⟩, -⟩ := (h.armed e d).mp hd
  rw [hnodes] at hn
  cases hn

theorem not_armed (h : Tells b a) (he : ¬ b.timer.Armed e) : a.armed e = none := by
  rw [Option.eq_none_iff_forall_ne_some]
  exact fun d hd ↦ he ((h.armed e d).mp hd).1

theorem write (h : Tells b a) (he : ¬ b.timer.Armed e) (ev : EventT) :
    Tells { b with mem := Function.update b.mem e ev }
      { a with interval := Function.update a.interval e ev.ev_tv,
               persist := Function.update a.persist e ev.ev_persist } := by
  have hother : ∀ e', b.timer.Armed e' → Function.update b.mem e ev e' = b.mem e' := by
    intro e' he'
    apply Function.update_of_ne
    rintro rfl
    exact he he'
  have hkey : ∀ n ∈ b.timer.nodes, Memory.key (Function.update b.mem e ev) n = b.mem.key n :=
    fun n hn ↦ congrArg EventT.ev_timeout (hother n.value ⟨n, hn, rfl⟩)
  refine ⟨h.good.congr hkey, ?_, ?_, ?_, ?_, h.running⟩
  · intro e' d
    rw [h.armed]
    constructor
    · rintro ⟨harmed, hd⟩
      exact ⟨harmed, (congrArg EventT.ev_timeout (hother e' harmed)).trans hd⟩
    · rintro ⟨harmed, hd⟩
      exact ⟨harmed, (congrArg EventT.ev_timeout (hother e' harmed)).symm.trans hd⟩
  · intro n hn
    rw [hkey n hn]
    exact h.positive n hn
  · intro e'
    by_cases heq : e' = e
    · subst heq
      simp
    · simp only [Function.update_of_ne heq, h.interval]
  · intro e'
    by_cases heq : e' = e
    · subst heq
      simp
    · simp only [Function.update_of_ne heq, h.persist]

theorem retime (h : Tells b a) (he : ¬ b.timer.Armed e) (tv : Timeval) :
    Tells { b with mem := b.mem.setTimeout e tv } a := by
  have hw := h.write he { b.mem e with ev_timeout := tv }
  have hinterval : Function.update a.interval e (b.mem e).ev_tv = a.interval := by
    rw [← h.interval, Function.update_eq_self]
  have hpersist : Function.update a.persist e (b.mem e).ev_persist = a.persist := by
    rw [← h.persist, Function.update_eq_self]
  dsimp only at hw
  rw [hinterval, hpersist] at hw
  exact hw

theorem timer_add (rb : Rebalance TimerNode) (h : Tells b a) (he : ¬ b.timer.Armed e) {now : Clock}
    (hnow : EventBase.Timely (b.mem e).ev_timeout now) :
    Tells (b.timer_add rb now e) (a.set e (Alarms.deadline now (b.mem e).ev_timeout)) := by
  by_cases hpos : timeval_cmp (b.mem e).ev_timeout .zero = .gt
  · have hadd : b.timer_add rb now e =
        { b with mem := b.mem.setTimeout e ((b.mem e).ev_timeout.plus now.timeval),
                 timer := b.timer.insert rb
                   (b.mem.setTimeout e ((b.mem e).ev_timeout.plus now.timeval)) e } := by
      rw [EventBase.timer_add, RbtreeTimer.add, if_pos hpos, timeval_add_eq (hnow hpos)]
    have hw := h.retime he ((b.mem e).ev_timeout.plus now.timeval)
    have htime : ((b.mem.setTimeout e ((b.mem e).ev_timeout.plus now.timeval)) e).ev_timeout =
        (b.mem e).ev_timeout.plus now.timeval := by
      rw [Memory.setTimeout, Function.update_self]
    obtain ⟨hgood, hperm⟩ := hw.good.insert rb he
    have harmed : ∀ e', (b.timer.insert rb
        (b.mem.setTimeout e ((b.mem e).ev_timeout.plus now.timeval)) e).Armed e' ↔
          e' = e ∨ b.timer.Armed e' := by
      intro e'
      constructor
      · rintro ⟨n, hn, rfl⟩
        rcases List.mem_cons.mp (hperm.mem_iff.mp hn) with rfl | hn
        · exact Or.inl rfl
        · exact Or.inr ⟨n, hn, rfl⟩
      · rintro (rfl | ⟨n, hn, rfl⟩)
        · exact ⟨_, hperm.mem_iff.mpr List.mem_cons_self, rfl⟩
        · exact ⟨n, hperm.mem_iff.mpr (List.mem_cons_of_mem _ hn), rfl⟩
    rw [hadd, Alarms.deadline, if_pos hpos]
    refine ⟨hgood, ?_, ?_, ?_, ?_, h.running⟩
    · intro e' d
      by_cases heq : e' = e
      · subst heq
        rw [Alarms.set_armed_self, harmed, htime]
        simp
      · have hold := hw.armed e' d
        rw [Alarms.set_armed_of_ne _ heq, harmed, or_iff_right heq]
        exact hold
    · intro n hn
      rcases List.mem_cons.mp (hperm.mem_iff.mp hn) with rfl | hn
      · rw [Memory.key, htime]
        exact plus_pos hpos now
      · exact hw.positive n hn
    · exact hw.interval
    · exact hw.persist
  · have hadd : b.timer_add rb now e = b := by
      rw [EventBase.timer_add, RbtreeTimer.add, if_neg hpos]
    have hset : a.set e none = a := by
      rw [Alarms.set, ← h.not_armed he, Function.update_eq_self]
    rw [hadd, Alarms.deadline, if_neg hpos, hset]
    exact h

theorem timer_del (rb : Rebalance TimerNode) (h : Tells b a) (he : b.Deletable e) :
    ∃ timer, b.timer_del rb e = some { b with timer := timer } ∧
      Tells { b with timer := timer } (a.set e none) ∧ ¬ timer.Armed e := by
  by_cases hpos : timeval_cmp (b.mem e).ev_timeout .zero = .gt
  · obtain ⟨harmed, halone⟩ := he.resolve_left (not_not_intro hpos)
    obtain ⟨timer, hdel, hgood, hnodes⟩ := h.good.delete rb harmed halone
    refine ⟨timer, ?_, ⟨hgood, ?_, ?_, h.interval, h.persist, h.running⟩, ?_⟩
    · rw [EventBase.timer_del, RbtreeTimer.del, if_pos hpos, hdel, Option.map_some]
    · intro e' d
      by_cases heq : e' = e
      · subst heq
        rw [Alarms.set_armed_self]
        constructor
        · intro hd
          cases hd
        · rintro ⟨⟨n, hn, hv⟩, -⟩
          exact (((hnodes n).mp hn).2 hv).elim
      · rw [Alarms.set_armed_of_ne _ heq, h.armed]
        refine and_congr_left fun _ ↦ exists_congr fun n ↦ ?_
        constructor
        · rintro ⟨hn, rfl⟩
          exact ⟨(hnodes n).mpr ⟨hn, heq⟩, rfl⟩
        · rintro ⟨hn, rfl⟩
          exact ⟨((hnodes n).mp hn).1, rfl⟩
    · exact fun n hn ↦ h.positive n ((hnodes n).mp hn).1
    · rintro ⟨n, hn, hv⟩
      exact ((hnodes n).mp hn).2 hv
  · have hnot : ¬ b.timer.Armed e := by
      rintro ⟨n, hn, rfl⟩
      exact hpos (h.positive n hn)
    have hset : a.set e none = a := by
      rw [Alarms.set, ← h.not_armed hnot, Function.update_eq_self]
    rw [hset]
    refine ⟨b.timer, ?_, h, hnot⟩
    rw [EventBase.timer_del, RbtreeTimer.del, if_neg hpos, Option.map_some]

theorem rearm (rb : Rebalance TimerNode) (h : Tells b a) (he : ¬ b.timer.Armed e) {now : Clock}
    (hnow : EventBase.Timely (b.mem e).ev_tv now) :
    Tells (b.rearm rb now e) (a.set e (Alarms.deadline now (a.interval e))) := by
  have htime : (b.mem.setTimeout e (b.mem e).ev_tv e).ev_timeout = (b.mem e).ev_tv := by
    rw [Memory.setTimeout, Function.update_self]
  have hadd := (h.retime he (b.mem e).ev_tv).timer_add rb he (by
    dsimp only
    rw [htime]
    exact hnow)
  dsimp only at hadd
  rw [htime] at hadd
  rw [h.interval]
  exact hadd

/-! ## One call -/

theorem add (rb : Rebalance TimerNode) (rio : Rebalance (ℕ × ℕ)) (h : Tells b a)
    (he : ¬ b.timer.Armed e) {now : Clock} (ev_fd : ℕ) (ev_persist : Bool) {ev_timeout : Timeval}
    (hnow : EventBase.Timely ev_timeout now) (o : Answer) :
    Tells (EventBase.add rb rio now b e ⟨ev_fd, ev_persist, ev_timeout, ev_timeout⟩)
      (a.next (.add e ev_fd ev_persist ev_timeout now) o) := by
  have hw := h.write he ⟨ev_fd, ev_persist, ev_timeout, ev_timeout⟩
  have hio : Tells { b with
        mem := Function.update b.mem e ⟨ev_fd, ev_persist, ev_timeout, ev_timeout⟩,
        io_map := b.io_map.add rio ev_fd e } _ :=
    ⟨hw.good, hw.armed, hw.positive, hw.interval, hw.persist, hw.running⟩
  have hadd := hio.timer_add rb he (by
    dsimp only
    rw [Function.update_self]
    exact hnow)
  dsimp only at hadd
  rw [Function.update_self] at hadd
  exact hadd

theorem del (rb : Rebalance TimerNode) (rio : Rebalance (ℕ × ℕ)) (h : Tells b a)
    (he : b.Deletable e) :
    ∃ b', b.del rb rio e = some b' ∧ Tells b' (a.set e none) := by
  obtain ⟨timer, hdel, htells, -⟩ := h.timer_del rb he
  refine ⟨{ b with timer := timer, io_map := b.io_map.del rio (b.mem e).ev_fd }, ?_,
    htells.good, htells.armed, htells.positive, htells.interval, htells.persist, htells.running⟩
  rw [EventBase.del, hdel, Option.map_some]

theorem started (h : Tells b a) (s : Started) (e : ℕ) :
    Tells { b with running := (e, s) :: b.running } (a.started (some e)) :=
  ⟨h.good, h.armed, h.positive, h.interval, h.persist, congrArg (e :: ·) h.running⟩

theorem persist_again (rb : Rebalance TimerNode) (h : Tells b a) (he : b.Deletable e)
    {now : Clock} (hnow : EventBase.Timely (b.mem e).ev_tv now) :
    ∃ b', (b.timer_del rb e).map (fun b ↦ b.rearm rb now e) = some b' ∧
      Tells b' (a.set e (Alarms.deadline now (a.interval e))) := by
  obtain ⟨timer, hdel, htells, hout⟩ := h.timer_del rb he
  refine ⟨_, by rw [hdel, Option.map_some], ?_⟩
  have hback := htells.rearm rb hout hnow
  have hset : (a.set e none).set e (Alarms.deadline now ((a.set e none).interval e)) =
      a.set e (Alarms.deadline now (a.interval e)) := by
    simp only [Alarms.set, Function.update_idem]
  rwa [hset] at hback

theorem finish (rb : Rebalance TimerNode) (rio : Rebalance (ℕ × ℕ)) (h : Tells b a)
    (he : b.Deletable e) {now : Clock}
    (hnow : (b.mem e).ev_persist → EventBase.Timely (b.mem e).ev_tv now) (s : Started) :
    ∃ b', b.finish rb rio now e s = some b' ∧
      Tells b' (a.set e (if a.persist e then Alarms.deadline now (a.interval e) else none)) := by
  rw [h.persist e]
  cases hp : (b.mem e).ev_persist with
  | true =>
    obtain ⟨b', hb', htells⟩ := h.persist_again rb he (hnow hp)
    refine ⟨b', ?_, htells⟩
    cases s with
    | activate_io => rw [EventBase.finish, if_pos hp, hb']
    | process_timeout =>
      rw [EventBase.finish, if_pos hp]
      exact hb'
  | false =>
    cases s with
    | activate_io =>
      obtain ⟨b', hb', htells⟩ := h.del rb rio he
      exact ⟨b', by rw [EventBase.finish, hp]; exact hb', htells⟩
    | process_timeout =>
      obtain ⟨timer, hdel, htells, -⟩ := h.timer_del rb he
      exact ⟨_, by rw [EventBase.finish, hp]; exact hdel, htells⟩

theorem callback_returns (rb : Rebalance TimerNode) (rio : Rebalance (ℕ × ℕ)) (h : Tells b a)
    {now : Clock} (he : ∀ r ∈ b.running.head?, b.Deletable r.1 ∧
      ((b.mem r.1).ev_persist → EventBase.Timely (b.mem r.1).ev_tv now)) (o : Answer) :
    ∃ b', b.callback_returns rb rio now = some b' ∧
      Tells b' (a.next (.callback_returns now) o) := by
  have hrunning := h.running
  rw [Alarms.next, ← hrunning, EventBase.callback_returns]
  cases hr : b.running with
  | nil => exact ⟨b, rfl, h⟩
  | cons r running =>
    have hrest : Tells { b with running := running } { a with running := running.map Prod.fst } :=
      ⟨h.good, h.armed, h.positive, h.interval, h.persist, rfl⟩
    obtain ⟨hdel, hnow⟩ := he r (by rw [hr]; rfl)
    exact hrest.finish rb rio hdel hnow r.2

theorem first (h : Tells b a) :
    (b.timer.first = some none ∧ ∀ e, a.armed e = none) ∨
      ∃ e, b.timer.first = some (some e) ∧ a.Soonest e (b.mem e).ev_timeout := by
  rcases h.good.begin_cases with ⟨hbegin, hnodes⟩ | ⟨p, n, hbegin, hat, hn, hmin⟩
  · exact Or.inl ⟨by rw [RbtreeTimer.first, hbegin], h.none_armed hnodes⟩
  · refine Or.inr ⟨n.value, ?_, h.soonest (List.mem_of_mem_head? hn) hmin⟩
    simp only [RbtreeTimer.first, hbegin, hat, Option.map_some]

theorem timeout_next (h : Tells b a) {now : Clock} (hnow : b.Distinct (.timeout_next now)) :
    (b.timer.timeout_next now b.mem = some none ∧ ∀ e, a.armed e = none) ∨
      ∃ e d, a.Soonest e d ∧ b.timer.timeout_next now b.mem = some
        (some (if timeval_cmp d now.timeval = .gt then d.minus now.timeval else .zero)) := by
  rcases h.good.begin_cases with ⟨hbegin, hnodes⟩ | ⟨p, n, hbegin, hat, hn, hmin⟩
  · exact Or.inl ⟨by rw [RbtreeTimer.timeout_next, hbegin], h.none_armed hnodes⟩
  · refine Or.inr ⟨n.value, b.mem.key n, h.soonest (List.mem_of_mem_head? hn) hmin, ?_⟩
    simp only [RbtreeTimer.timeout_next, hbegin, hat, Option.map_some]
    by_cases hgt : timeval_cmp (b.mem.key n) now.timeval = .gt
    · rw [if_pos hgt, if_pos hgt, timeval_sub_eq (hnow n hn hgt)]
    · rw [if_neg hgt, if_neg hgt]

theorem process_timeout_events (h : Tells b a) (now : Clock) :
    ∃ b' e, b.process_timeout_events now = some (b', e) ∧ Tells b' (a.started e) ∧
      ∀ delay holds, a.Gives (.process_timeout_events now) ⟨e, delay, holds⟩ := by
  rcases h.first with ⟨hfirst, hnone⟩ | ⟨e, hfirst, hsoon⟩
  · refine ⟨b, none, by rw [EventBase.process_timeout_events, hfirst]; rfl, h, ?_⟩
    intro delay holds e d hd
    rw [hnone] at hd
    cases hd
  · by_cases hlt : timeval_cmp now.timeval (b.mem e).ev_timeout = .lt
    · refine ⟨b, none, ?_, h, ?_⟩
      · simp only [EventBase.process_timeout_events, hfirst, Option.map_some, hlt, if_true]
      · intro delay holds e' d hd
        exact TransCmp.lt_of_lt_of_isLE hlt (hsoon.2 e' d hd)
    · refine ⟨_, some e, ?_, h.started .process_timeout e, ?_⟩
      · simp only [EventBase.process_timeout_events, hfirst, Option.map_some, if_neg hlt]
      · exact fun delay holds ↦ ⟨_, hsoon, hlt⟩

end Tells

theorem EventBase.call_spec (rb : Rebalance TimerNode) (rio : Rebalance (ℕ × ℕ)) {b : EventBase}
    {a : Alarms} {c : Call} (h : Tells b a) (hc : b.Distinct c) :
    ∃ b' o, b.call rb rio c = some (b', o) ∧ a.Allowed c o ∧ Tells b' (a.next c o) := by
  have key : ∃ b' e tv, b.serve rb rio c = some (b', e, tv) ∧
      a.Gives c ⟨e, tv, b'.holds⟩ ∧ Tells b' (a.next c ⟨e, tv, b'.holds⟩) := by
    cases c with
    | add e ev_fd ev_persist ev_timeout now =>
      exact ⟨_, none, none, rfl, trivial, h.add rb rio hc.1 ev_fd ev_persist hc.2 _⟩
    | del e =>
      obtain ⟨b', hdel, htells⟩ := h.del rb rio hc
      exact ⟨b', none, none, by rw [serve, hdel]; rfl, trivial, htells⟩
    | activate_io fd =>
      refine ⟨_, _, none, rfl, trivial, ?_⟩
      rw [Alarms.next, EventBase.activate_io]
      cases b.io_map.search fd with
      | none => exact h
      | some e => exact h.started .activate_io e
    | process_timeout_events now =>
      obtain ⟨b', e, hb', htells, hgives⟩ := h.process_timeout_events now
      exact ⟨b', e, none, by rw [serve, hb']; rfl, hgives none _, htells⟩
    | callback_returns now =>
      obtain ⟨b', hb', htells⟩ := h.callback_returns rb rio hc ⟨none, none, []⟩
      exact ⟨b', none, none, by rw [serve, hb']; rfl, trivial, htells⟩
    | timeout_next now =>
      rcases h.timeout_next hc with ⟨hnext, hnone⟩ | ⟨e, d, hsoon, hnext⟩
      · exact ⟨b, none, none, by rw [serve, hnext]; rfl, hnone, h⟩
      · exact ⟨b, none, some _, by rw [serve, hnext]; rfl, ⟨e, d, hsoon, rfl⟩, h⟩
    | first =>
      rcases h.first with ⟨hfirst, hnone⟩ | ⟨e, hfirst, hsoon⟩
      · exact ⟨b, none, none, by rw [serve, hfirst]; rfl, hnone, h⟩
      · exact ⟨b, some e, none, by rw [serve, hfirst]; rfl, ⟨_, hsoon⟩, h⟩
  obtain ⟨b', e, tv, hserve, hgives, htells⟩ := key
  refine ⟨b', ⟨e, tv, b'.holds⟩, ?_, ⟨hgives, htells.held⟩, htells⟩
  rw [call, hserve]
  rfl

/-- Memory of events that holds zeros. -/
def clearMemory : Memory := fun _ ↦ ⟨0, false, .zero, .zero⟩

def atSecond (s : ℕ) : Clock := ⟨s, 0, by decide⟩

/-- A persistent event fires beside one that waits, which is deleted behind that. -/
def ticking : List Call :=
  [.add 1 7 true ⟨5, 0⟩ (atSecond 10), .add 2 8 false ⟨7, 500000⟩ (atSecond 10),
    .timeout_next (atSecond 11), .process_timeout_events (atSecond 15),
    .callback_returns (atSecond 16), .first, .del 2, .del 3]

namespace Alarms

/-- Whatever the timer holds is armed. -/
def sound : Spec Alarms Call Answer :=
  ⟨fun a c o ↦ ∀ p ∈ o.holds, (a.next c o).armed p.1 = some p.2, next⟩

instance (a : Alarms) (c : Call) (o : Answer) : Decidable (sound.ok a c o) :=
  inferInstanceAs (Decidable (∀ p ∈ o.holds, _))

theorem sound_of_spec {rb : Rebalance TimerNode} {rio : Rebalance (ℕ × ℕ)} {b : EventBase}
    {a : Alarms} {cs : List Call} (h : Refine.Refines (EventBase.call rb rio) spec b a cs) :
    Refine.Refines (EventBase.call rb rio) sound b a cs := by
  have hok : ∀ a c o, spec.ok a c o → sound.ok a c o :=
    fun _ _ _ hallowed p hp ↦ (hallowed.2.2 p.1 p.2).mp hp
  exact Refine.Refines.mono hok h

end Alarms

/-- The other event of the same deadline goes. -/
def sameDeadline : List Call :=
  [.add 1 7 false ⟨5, 0⟩ (atSecond 10), .add 2 8 false ⟨5, 0⟩ (atSecond 10), .del 2]

/-- The event has fired, its deadline still stands in its field, and the search finds nothing. -/
def firedBefore : List Call :=
  [.add 1 7 false ⟨5, 0⟩ (atSecond 10), .process_timeout_events (atSecond 15),
    .callback_returns (atSecond 15), .del 1]

end Libobject.Event
