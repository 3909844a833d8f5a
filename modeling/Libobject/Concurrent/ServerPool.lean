import Mathlib.Data.Int.Notation
import Mathlib.Data.List.Nodup
import Mathlib.Logic.Function.Basic
import Libobject.Event.Registry

/-!
# The workers of a server

A connection is served by a worker, which the server takes from its leisure list or allocates, and
puts back when the connection is closed. Workers are numbered as they are allocated. What happens
to the descriptors is kept in a trace, against which the descriptors that are open are told.

What `select` watches and the pure timers of the base are left out: a worker has no timeout, and
every descriptor fits an `fd_set`.
-/

namespace Libobject.Concurrent

open Std Event

structure Worker where
  /-- of its socket, `-1` when closed -/
  fd : ℤ
  ev_fd : ℤ
  producer : Bool
  /-- whether it has resigned -/
  flags : Bool
  deriving DecidableEq

/-- What is done to a descriptor. -/
inductive Act
  | accept (fd : ℤ)
  | recv (fd : ℤ)
  | work_callback (fd : ℤ)
  | close (fd : ℤ)
  deriving DecidableEq

structure Server where
  workers : ℕ → Worker
  count : ℕ
  working_workers : List ℕ
  leisure_workers : List ℕ
  /-- of the producer, under the number of the descriptor -/
  io_map : NumberMap
  /-- whether the thread of the producer has begun to run -/
  running : Bool

/-- A connection's event: what is received, the sockets that the handler closes each time it is
called, and what it answers when there is room to write. -/
structure IoEvent where
  fd : ℕ
  read : Bool
  write : Bool
  len : ℤ
  closes_read : List ℕ
  closes_write : List ℕ
  ret : ℤ
  deriving DecidableEq

namespace Server

variable (rb : Rebalance (ℕ × ℕ)) (work_callback : Bool)

def new : Server := ⟨fun _ ↦ ⟨-1, -1, false, false⟩, 0, [], [], .empty, false⟩

def setWorker (s : Server) (w : ℕ) (worker : Worker) : Server :=
  { s with workers := Function.update s.workers w worker }

/-- A call after another; the acts of both. -/
def andThen (r : Server × List Act) (f : Server → Server × List Act) : Server × List Act :=
  ((f r.1).1, r.2 ++ (f r.1).2)

/-! ### Worker and producer -/

def assign (s : Server) (w : ℕ) (fd : ℤ) : Server :=
  s.setWorker w { s.workers w with ev_fd := fd, flags := false }

def add_worker (s : Server) (w : ℕ) : Server :=
  if s.running then { s with io_map := s.io_map.add rb (s.workers w).ev_fd.toNat w } else s

/-- It does not look at the answer of `add_worker`. -/
def enroll (s : Server) (w : ℕ) : Server :=
  (s.setWorker w { s.workers w with producer := true }).add_worker rb w

def del_worker (s : Server) (w : ℕ) : Server :=
  if s.running then { s with io_map := s.io_map.del rb (s.workers w).ev_fd.toNat } else s

def resign (s : Server) (w : ℕ) : Server × Bool :=
  if (s.workers w).producer = false then (s, false)
  else if (s.workers w).flags then (s, false)
  else ((s.setWorker w { s.workers w with flags := true }).del_worker rb w, true)

/-! ### Server -/

/-- There is a socket once there is its worker. -/
def close_subsocket (s : Server) (w : ℕ) : Server × List Act :=
  if s.count ≤ w then (s, [])
  else
    let (s, ret) := s.resign rb w
    if ret then
      ({ s.setWorker w { s.workers w with fd := -1 } with
          working_workers := s.working_workers.erase w
          leisure_workers := s.leisure_workers ++ [w] },
        [.close (s.workers w).fd])
    else (s, [])

def close_subsockets (s : Server) : List ℕ → Server × List Act
  | [] => (s, [])
  | w :: ws => andThen (s.close_subsocket rb w) fun s ↦ s.close_subsockets ws

/-- The handler, if there is one, is called with a descriptor and closes some sockets. -/
def callback (s : Server) (fd : ℤ) (closes : List ℕ) : Server × List Act :=
  if work_callback then andThen (s, [.work_callback fd]) fun s ↦ s.close_subsockets rb closes
  else (s, [])

def get_worker (s : Server) : Server × ℕ :=
  match s.leisure_workers with
  | w :: ws => ({ s with leisure_workers := ws }, w)
  | [] => ({ s.setWorker s.count ⟨-1, -1, false, false⟩ with count := s.count + 1 }, s.count)

/-- What the system has accepted is an act of its own, whether the server takes it or not. -/
def listenfd_ev_callback (s : Server) (new_fd : ℤ) : Server × List Act :=
  let accepted := if new_fd < 0 then [] else [.accept new_fd]
  if new_fd ≤ 1 then (s, accepted)
  else
    let (s, w) := s.get_worker
    let s := s.setWorker w { s.workers w with fd := new_fd }
    let s := (s.assign w new_fd).enroll rb w
    ({ s with working_workers := s.working_workers ++ [w] }, accepted)

/-- The rest of the callback, when there is room to write. -/
def write_ev (s : Server) (w : ℕ) (fd : ℤ) (e : IoEvent) : Server × List Act :=
  if e.write && work_callback then
    andThen (s.callback rb work_callback fd e.closes_write) fun s ↦
      if e.ret = 0 then (s, []) else s.close_subsocket rb w
  else (s, [])

def new_conn_ev_callback (s : Server) (w : ℕ) (fd : ℤ) (e : IoEvent) : Server × List Act :=
  if e.read then
    andThen (s, [.recv (s.workers w).fd]) fun s ↦
      andThen (s.callback rb work_callback fd e.closes_read) fun s ↦
        if e.len ≤ 0 then s.close_subsocket rb w
        else s.write_ev rb work_callback w fd e
  else s.write_ev rb work_callback w fd e

def activate_io (s : Server) (e : IoEvent) : Server × List Act :=
  match s.io_map.search e.fd with
  | none => (s, [])
  | some w => s.new_conn_ev_callback rb work_callback w (s.workers w).ev_fd e

end Server

inductive ServerEvent
  | start
  | accept (new_fd : ℤ)
  | io (event : IoEvent)
  | close_subsocket (worker : ℕ)
  deriving DecidableEq

/-- What is seen behind an event: the acts it led to, the two lists, the number of workers, the
descriptors of the working ones and the workers in the event base. -/
structure ServerReply where
  acts : List Act
  working : List ℕ
  leisure : List ℕ
  count : ℕ
  served : List ℤ
  enrolled : List ℕ
  deriving DecidableEq

namespace Server

variable (rb : Rebalance (ℕ × ℕ)) (work_callback : Bool)

def serve (s : Server) : ServerEvent → Server × List Act
  | .start => ({ s with running := true }, [])
  | .accept new_fd => s.listenfd_ev_callback rb new_fd
  | .io e => s.activate_io rb work_callback e
  | .close_subsocket w => s.close_subsocket rb w

def served (s : Server) : List ℤ := s.working_workers.map fun w ↦ (s.workers w).fd

def reply (r : Server × List Act) : ServerReply :=
  ⟨r.2, r.1.working_workers, r.1.leisure_workers, r.1.count, r.1.served,
    r.1.io_map.entries.map Prod.snd⟩

def call (s : Server) (e : ServerEvent) : Option (Server × ServerReply) :=
  let r := s.serve rb work_callback e
  some (r.1, reply r)

end Server

/-! ## What the workers are for -/

namespace Act

/-- Only a descriptor that is open is touched, and only one that is not is accepted. -/
def Allowed (opened : List ℤ) : Act → Prop
  | accept fd => fd ∉ opened
  | recv fd => fd ∈ opened
  | work_callback fd => fd ∈ opened
  | close fd => fd ∈ opened

instance decidableAllowed (opened : List ℤ) : (act : Act) → Decidable (Allowed opened act)
  | accept _ => inferInstanceAs (Decidable (_ ∉ _))
  | recv _ => inferInstanceAs (Decidable (_ ∈ _))
  | work_callback _ => inferInstanceAs (Decidable (_ ∈ _))
  | close _ => inferInstanceAs (Decidable (_ ∈ _))

def after (opened : List ℤ) : Act → List ℤ
  | accept fd => fd :: opened
  | close fd => opened.erase fd
  | _ => opened

/-- The descriptors that are open after some acts. -/
abbrev opens (opened : List ℤ) (acts : List Act) : List ℤ := Run.final after opened acts

abbrev AllAllowed (opened : List ℤ) (acts : List Act) : Prop :=
  Run.Steps after (fun opened act _ ↦ Allowed opened act) opened acts

end Act

/-- Every worker is in exactly one of the lists, those at leisure are not in the event base, and
each open descriptor is served by just one worker. -/
def serverSpec : Spec (List ℤ) ServerEvent ServerReply where
  ok opened _ o := Act.AllAllowed opened o.acts ∧
    (o.working ++ o.leisure).Perm (List.range o.count) ∧
    (∀ w ∈ o.leisure, w ∉ o.enrolled) ∧ o.served.Nodup ∧
    o.served.Perm (Act.opens opened o.acts)
  next opened _ o := Act.opens opened o.acts

instance decidableServerOk (opened : List ℤ) (e : ServerEvent) (o : ServerReply) :
    Decidable (serverSpec.ok opened e o) :=
  inferInstanceAs (Decidable (_ ∧ _))

section Invariant

namespace Server

variable {rb : Rebalance (ℕ × ℕ)} {work_callback : Bool} {s : Server} {opened : List ℤ} {w : ℕ}

/-- A worker's event as the base sees it. -/
def event (s : Server) (w : ℕ) : EventKey := ⟨(s.workers w).ev_fd.toNat, false, true⟩

def Serving (worker : Worker) : Prop :=
  worker.ev_fd = worker.fd ∧ 1 < worker.fd ∧ worker.producer = true ∧ worker.flags = false

structure Sound (s : Server) (opened : List ℤ) : Prop where
  lists : (s.working_workers ++ s.leisure_workers).Perm (List.range s.count)
  served : s.served.Perm opened
  nodup : opened.Nodup
  serving : ∀ w ∈ s.working_workers, Serving (s.workers w)
  resigned : ∀ w ∈ s.leisure_workers, (s.workers w).flags = true
  enrolled : ∃ es, Holds s.event s.io_map es ∧ es.Subperm s.working_workers
  started : s.running = false → s.io_map.entries = []

/-- The acts of a call are allowed, and the invariant holds behind it. -/
def Keeps (opened : List ℤ) (r : Server × List Act) : Prop :=
  Act.AllAllowed opened r.2 ∧ r.1.Sound (Act.opens opened r.2)

theorem keeps_nil (h : s.Sound opened) : Keeps opened (s, []) := ⟨trivial, h⟩

theorem Keeps.andThen {r : Server × List Act} {f : Server → Server × List Act}
    (hr : Keeps opened r) (hf : ∀ opened', r.1.Sound opened' → Keeps opened' (f r.1)) :
    Keeps opened (andThen r f) := by
  obtain ⟨hacts, hsound⟩ := hr
  obtain ⟨hacts', hsound'⟩ := hf _ hsound
  refine ⟨Run.steps_append.mpr ⟨hacts, hacts'⟩, ?_⟩
  simpa only [Server.andThen, Act.opens, Run.final_append] using hsound'

namespace Sound

theorem nodup_lists (h : s.Sound opened) : (s.working_workers ++ s.leisure_workers).Nodup :=
  h.lists.nodup_iff.mpr List.nodup_range

theorem nodup_working (h : s.Sound opened) : s.working_workers.Nodup :=
  (List.nodup_append.mp h.nodup_lists).1

theorem mem_lists (h : s.Sound opened) :
    w ∈ s.working_workers ∨ w ∈ s.leisure_workers ↔ w < s.count := by
  rw [← List.mem_append, h.lists.mem_iff, List.mem_range]

theorem mem_opened (h : s.Sound opened) (hw : w ∈ s.working_workers) :
    (s.workers w).fd ∈ opened :=
  h.served.mem_iff.mp (List.mem_map_of_mem hw)

theorem eq_of_fd (h : s.Sound opened) {v : ℕ} (hv : v ∈ s.working_workers)
    (hw : w ∈ s.working_workers) (heq : (s.workers v).fd = (s.workers w).fd) : v = w :=
  List.inj_on_of_nodup_map (h.served.nodup_iff.mpr h.nodup) hv hw heq

theorem working_of_search (h : s.Sound opened) {k : ℕ} (hsearch : s.io_map.search k = some w) :
    w ∈ s.working_workers ∧ (s.workers w).fd = k := by
  obtain ⟨es, hes, hsub⟩ := h.enrolled
  obtain ⟨k', hk, hentry⟩ := RbTreeMap.search_some hsearch
  obtain rfl := LawfulEqCmp.eq_of_compare hk
  obtain ⟨hkey, hmem⟩ := hes.mem hentry
  have hw := hsub.subset hmem
  obtain ⟨heq, hpos, -⟩ := h.serving w hw
  refine ⟨hw, ?_⟩
  rw [← hkey, ← heq]
  exact (Int.toNat_of_nonneg (by omega)).symm

end Sound

/-! ### Closing -/

/-- The server once it has closed the socket of a working one. -/
def closed (rb : Rebalance (ℕ × ℕ)) (s : Server) (w : ℕ) : Server where
  workers := Function.update s.workers w { s.workers w with flags := true, fd := -1 }
  count := s.count
  working_workers := s.working_workers.erase w
  leisure_workers := s.leisure_workers ++ [w]
  io_map := if s.running then s.io_map.del rb (s.workers w).ev_fd.toNat else s.io_map
  running := s.running

theorem closed_workers_ne {v : ℕ} (hv : v ≠ w) : (s.closed rb w).workers v = s.workers v :=
  Function.update_of_ne hv _ _

theorem closed_workers_self :
    (s.closed rb w).workers w = { s.workers w with flags := true, fd := -1 } :=
  Function.update_self _ _ _

theorem close_subsocket_working (h : s.Sound opened) (hw : w ∈ s.working_workers) :
    s.close_subsocket rb w = (s.closed rb w, [.close (s.workers w).fd]) := by
  have hcount : ¬s.count ≤ w := Nat.not_le_of_lt (h.mem_lists.mp (.inl hw))
  obtain ⟨-, -, hproducer, hflags⟩ := h.serving w hw
  cases hrunning : s.running <;>
    simp [close_subsocket, hcount, resign, hproducer, hflags, del_worker, setWorker, closed,
      hrunning]

theorem close_subsocket_idle (h : s.Sound opened) (hw : w ∉ s.working_workers) :
    s.close_subsocket rb w = (s, []) := by
  unfold close_subsocket
  by_cases hcount : s.count ≤ w
  · exact if_pos hcount
  · have hidle : w ∈ s.leisure_workers :=
      (h.mem_lists.mpr (Nat.lt_of_not_le hcount)).resolve_left hw
    have hresign : s.resign rb w = (s, false) := by
      unfold resign
      split
      · rfl
      · rw [if_pos (h.resigned w hidle)]
    rw [if_neg hcount, hresign]
    rfl

theorem Sound.served_closed (h : s.Sound opened) (hw : w ∈ s.working_workers) :
    (s.closed rb w).served.Perm (opened.erase (s.workers w).fd) := by
  have hne : ∀ v ∈ s.working_workers.erase w, v ≠ w := fun v hv ↦
    ((h.nodup_working.mem_erase_iff).mp hv).1
  have hsame : (s.closed rb w).served =
      (s.working_workers.erase w).map fun v ↦ (s.workers v).fd :=
    List.map_congr_left fun v hv ↦ congrArg Worker.fd (closed_workers_ne (hne v hv))
  have hserved := ((List.perm_cons_erase hw).map fun v ↦ (s.workers v).fd).symm.trans h.served
  have hopened := hserved.trans (List.perm_cons_erase (h.mem_opened hw))
  rw [hsame]
  exact hopened.cons_inv

theorem Holds.congr {ev ev' : ℕ → EventKey} {map : NumberMap} {es : List ℕ}
    (hev : ∀ e ∈ es, ev' e = ev e) (h : Holds ev map es) : Holds ev' map es := by
  refine h.trans (List.Perm.of_eq (List.map_congr_left fun e he ↦ ?_))
  rw [Registered.entry, Registered.entry, hev e he]

theorem Sound.holds_del (h : s.Sound opened) (hw : w ∈ s.working_workers) {es : List ℕ}
    (hes : Holds s.event s.io_map es) : Holds s.event (s.closed rb w).io_map (es.erase w) := by
  rw [Server.closed]
  cases hrunning : s.running with
  | true =>
    refine hes.del rb fun v hv ↦ ?_
    obtain ⟨hworking, hfd⟩ := h.working_of_search hv
    obtain ⟨heq, hpos, -⟩ := h.serving w hw
    refine h.eq_of_fd hworking hw ?_
    rw [hfd, event, heq]
    exact Int.toNat_of_nonneg (by omega)
  | false =>
    have hnil : es = [] := by
      have hperm : [].Perm (es.map (Registered.entry s.event)) := h.started hrunning ▸ hes
      exact List.map_eq_nil_iff.mp (List.nil_perm.mp hperm)
    rw [hnil] at hes ⊢
    exact hes

theorem Sound.closed (h : s.Sound opened) (hw : w ∈ s.working_workers) :
    (s.closed rb w).Sound (opened.erase (s.workers w).fd) where
  lists := by
    refine List.Perm.trans ?_ h.lists
    have hfront := ((List.perm_cons_erase hw).append_right s.leisure_workers).symm
    refine List.Perm.trans ?_ hfront
    rw [Server.closed, ← List.append_assoc]
    exact List.perm_append_singleton w _
  served := h.served_closed hw
  nodup := h.nodup.erase _
  serving v hv := by
    obtain ⟨hne, hv⟩ := h.nodup_working.mem_erase_iff.mp hv
    rw [closed_workers_ne hne]
    exact h.serving v hv
  resigned v hv := by
    by_cases hvw : v = w
    · rw [hvw, closed_workers_self]
    · rw [closed_workers_ne hvw]
      rcases List.mem_append.mp hv with hv | hv
      · exact h.resigned v hv
      · exact absurd (List.mem_singleton.mp hv) hvw
  enrolled := by
    obtain ⟨es, hes, hsub⟩ := h.enrolled
    have hsub' : (es.erase w).Subperm (s.working_workers.erase w) := hsub.erase w
    refine ⟨es.erase w, Holds.congr (fun v hv ↦ ?_) (h.holds_del hw hes), hsub'⟩
    have hne : v ≠ w := (h.nodup_working.mem_erase_iff.mp (hsub'.subset hv)).1
    rw [event, event, closed_workers_ne hne]
  started hrunning := by
    have hrun : s.running = false := hrunning
    simp only [Server.closed, hrun]
    exact h.started hrun

theorem keeps_close_subsocket (h : s.Sound opened) (w : ℕ) :
    Keeps opened (s.close_subsocket rb w) := by
  by_cases hw : w ∈ s.working_workers
  · rw [close_subsocket_working h hw]
    exact ⟨⟨h.mem_opened hw, trivial⟩, h.closed hw⟩
  · rw [close_subsocket_idle h hw]
    exact keeps_nil h

theorem keeps_close_subsockets (h : s.Sound opened) (ws : List ℕ) :
    Keeps opened (s.close_subsockets rb ws) := by
  induction ws generalizing s opened with
  | nil => exact keeps_nil h
  | cons w ws ih => exact (keeps_close_subsocket h w).andThen fun _ h' ↦ ih h'

theorem close_subsockets_ne (h : s.Sound opened) (hw : w ∈ s.working_workers) {ws : List ℕ}
    (hws : w ∉ ws) :
    w ∈ (s.close_subsockets rb ws).1.working_workers ∧
      (s.close_subsockets rb ws).1.workers w = s.workers w := by
  induction ws generalizing s opened with
  | nil => exact ⟨hw, rfl⟩
  | cons v ws ih =>
    obtain ⟨hv, hws⟩ := not_or.mp fun hmem ↦ hws (List.mem_cons.mpr hmem)
    have hone : w ∈ (s.close_subsocket rb v).1.working_workers ∧
        (s.close_subsocket rb v).1.workers w = s.workers w := by
      by_cases hvw : v ∈ s.working_workers
      · rw [close_subsocket_working h hvw]
        exact ⟨h.nodup_working.mem_erase_iff.mpr ⟨hv, hw⟩, closed_workers_ne hv⟩
      · rw [close_subsocket_idle h hvw]
        exact ⟨hw, rfl⟩
    obtain ⟨hmem, hsame⟩ := ih (keeps_close_subsocket h v).2 hone.1 hws
    exact ⟨hmem, hsame.trans hone.2⟩

/-! ### Accepting -/

theorem get_worker_spec (h : s.Sound opened) :
    ∃ w s₁, s.get_worker = (s₁, w) ∧ w ∉ s.working_workers ∧
      (w :: (s.working_workers ++ s₁.leisure_workers)).Perm (List.range s₁.count) ∧
      (∀ v ∈ s₁.leisure_workers, v ∈ s.leisure_workers) ∧
      (∀ v ≠ w, s₁.workers v = s.workers v) ∧
      s₁.working_workers = s.working_workers ∧ s₁.io_map = s.io_map ∧
      s₁.running = s.running := by
  cases hleisure : s.leisure_workers with
  | nil =>
    have hget : s.get_worker = ({ s.setWorker s.count ⟨-1, -1, false, false⟩ with
        count := s.count + 1 }, s.count) := by rw [get_worker, hleisure]
    refine ⟨_, _, hget, fun hw ↦ Nat.lt_irrefl _ (h.mem_lists.mp (.inl hw)), ?_,
      fun v hv ↦ ?_, fun v hv ↦ Function.update_of_ne hv _ _, rfl, rfl, rfl⟩
    · have hlists := h.lists
      rw [hleisure, List.append_nil] at hlists
      simpa [setWorker, hleisure, List.range_succ] using
        (hlists.cons s.count).trans (List.perm_append_singleton s.count _).symm
    · exact hleisure ▸ hv
  | cons w ws =>
    have hget : s.get_worker = ({ s with leisure_workers := ws }, w) := by
      rw [get_worker, hleisure]
    have hlists := h.lists
    have hdisjoint := List.disjoint_of_nodup_append h.nodup_lists
    rw [hleisure] at hlists hdisjoint
    exact ⟨_, _, hget, fun hw ↦ hdisjoint hw List.mem_cons_self,
      List.perm_middle.symm.trans hlists, fun v hv ↦ List.mem_cons_of_mem w hv,
      fun _ _ ↦ rfl, rfl, rfl, rfl⟩

/-- The server with the connection given to a worker. -/
def hired (rb : Rebalance (ℕ × ℕ)) (s : Server) (w : ℕ) (fd : ℤ) : Server where
  workers := Function.update s.workers w ⟨fd, fd, true, false⟩
  count := s.count
  working_workers := s.working_workers ++ [w]
  leisure_workers := s.leisure_workers
  io_map := if s.running then s.io_map.add rb fd.toNat w else s.io_map
  running := s.running

theorem listenfd_ev_callback_eq {fd : ℤ} (hfd : 1 < fd) :
    s.listenfd_ev_callback rb fd =
      (hired rb s.get_worker.1 s.get_worker.2 fd, [.accept fd]) := by
  have hle : ¬fd ≤ 1 := by omega
  have hneg : ¬fd < 0 := by omega
  cases hrunning : s.get_worker.1.running <;>
    simp [listenfd_ev_callback, hle, hneg, setWorker, assign, enroll, add_worker, hired, hrunning]

theorem Sound.hired (h : s.Sound opened) {fd : ℤ} (hfd : 1 < fd) (hnew : fd ∉ opened) :
    (hired rb s.get_worker.1 s.get_worker.2 fd).Sound (fd :: opened) := by
  obtain ⟨w, s₁, hget, hidle, hlists, hleisure, hsame, hworking, hmap, hrun⟩ :=
    get_worker_spec h
  rw [hget]
  have hne : ∀ v ∈ s.working_workers, v ≠ w := fun v hv heq ↦ hidle (heq ▸ hv)
  have hworkers : ∀ v ≠ w, (Server.hired rb s₁ w fd).workers v = s.workers v := fun v hv ↦
    (Function.update_of_ne hv _ _).trans (hsame v hv)
  have hself : (Server.hired rb s₁ w fd).workers w = ⟨fd, fd, true, false⟩ :=
    Function.update_self _ _ _
  have hmem : ∀ {v}, v ∈ s₁.working_workers ++ [w] → v ∈ s.working_workers ∨ v = w := by
    intro v hv
    rw [hworking] at hv
    exact (List.mem_append.mp hv).imp_right List.mem_singleton.mp
  refine ⟨?_, ?_, List.nodup_cons.mpr ⟨hnew, h.nodup⟩, fun v hv ↦ ?_, fun v hv ↦ ?_, ?_, ?_⟩
  · refine List.Perm.trans ?_ hlists
    simp [Server.hired, hworking]
  · have hserved : (Server.hired rb s₁ w fd).served = s.served ++ [fd] := by
      have hcongr : s.working_workers.map (fun v ↦ ((Server.hired rb s₁ w fd).workers v).fd) =
          s.served :=
        List.map_congr_left fun v hv ↦ congrArg Worker.fd (hworkers v (hne v hv))
      rw [Server.served, Server.hired, hworking, List.map_append, List.map_singleton, ← hcongr]
      exact congrArg (_ ++ [·]) (congrArg Worker.fd hself)
    rw [hserved]
    exact (List.perm_append_singleton fd s.served).trans (h.served.cons fd)
  · rcases hmem hv with hv | rfl
    · rw [hworkers v (hne v hv)]
      exact h.serving v hv
    · rw [hself]
      exact ⟨rfl, hfd, rfl, rfl⟩
  · have hvw : v ≠ w := by
      rintro rfl
      have hnodup := hlists.nodup_iff.mpr List.nodup_range
      exact (List.nodup_cons.mp hnodup).1 (List.mem_append_right _ hv)
    rw [hworkers v hvw]
    exact h.resigned v (hleisure v hv)
  · obtain ⟨es, hes, hsub⟩ := h.enrolled
    have hold : Holds (Server.hired rb s₁ w fd).event s.io_map es := by
      refine Holds.congr (fun v hv ↦ ?_) hes
      rw [event, event, hworkers v (hne v (hsub.subset hv))]
    have hfront : (w :: s.working_workers).Subperm (s.working_workers ++ [w]) :=
      (List.perm_append_singleton w s.working_workers).symm.subperm
    cases hrunning : s.running with
    | true =>
      refine ⟨w :: es, ?_, ?_⟩
      · have hadd := hold.add rb w
        rw [event, hself] at hadd
        simpa [Server.hired, hmap, hrun, hrunning] using hadd
      · rw [Server.hired, hworking]
        exact ((List.subperm_cons w).mpr hsub).trans hfront
    | false =>
      refine ⟨es, ?_, ?_⟩
      · simpa [Server.hired, hmap, hrun, hrunning] using hold
      · rw [Server.hired, hworking]
        exact (hsub.trans (List.sublist_cons_self w _).subperm).trans hfront
  · intro hrunning
    have hfalse : s.running = false := hrun.symm.trans hrunning
    simpa [Server.hired, hmap, hrun, hfalse] using h.started hfalse

/-! ### The callback of a connection -/

theorem keeps_act (h : s.Sound opened) {act : Act} (hact : Act.Allowed opened act)
    (hafter : Act.after opened act = opened) : Keeps opened (s, [act]) := by
  refine ⟨⟨hact, trivial⟩, ?_⟩
  simpa only [Act.opens, Run.final, List.foldl_cons, List.foldl_nil, hafter] using h

theorem keeps_callback (h : s.Sound opened) {fd : ℤ} (hfd : fd ∈ opened) (closes : List ℕ) :
    Keeps opened (s.callback rb work_callback fd closes) := by
  cases work_callback with
  | true =>
    have hact : Keeps opened (s, [.work_callback fd]) := keeps_act h hfd rfl
    exact hact.andThen (f := fun s ↦ s.close_subsockets rb closes) fun _ h' ↦
      keeps_close_subsockets h' closes
  | false => exact keeps_nil h

theorem keeps_write_ev (h : s.Sound opened) (e : IoEvent) {fd : ℤ}
    (hfd : (e.write && work_callback) = true → fd ∈ opened) :
    Keeps opened (s.write_ev rb work_callback w fd e) := by
  unfold write_ev
  split
  · next hwrite =>
      refine (keeps_callback h (hfd hwrite) e.closes_write).andThen fun opened' h' ↦ ?_
      split
      · exact keeps_nil h'
      · exact keeps_close_subsocket h' w
  · exact keeps_nil h

theorem callback_working (h : s.Sound opened) (hw : w ∈ s.working_workers) {fd : ℤ}
    {closes : List ℕ} (hcloses : work_callback = true → w ∉ closes) :
    w ∈ (s.callback rb work_callback fd closes).1.working_workers ∧
      (s.callback rb work_callback fd closes).1.workers w = s.workers w := by
  cases work_callback with
  | true => exact close_subsockets_ne h hw (hcloses rfl)
  | false => exact ⟨hw, rfl⟩

theorem keeps_new_conn_ev_callback (h : s.Sound opened) (hw : w ∈ s.working_workers)
    {e : IoEvent} (hown : ¬(work_callback = true ∧ e.read = true ∧ e.write = true ∧ 0 < e.len ∧
      w ∈ e.closes_read)) :
    Keeps opened (s.new_conn_ev_callback rb work_callback w (s.workers w).ev_fd e) := by
  obtain ⟨hsame, -⟩ := h.serving w hw
  have hopen := h.mem_opened hw
  unfold new_conn_ev_callback
  rw [hsame]
  split
  · next hread =>
      have hrecv : Keeps opened (s, [.recv (s.workers w).fd]) := keeps_act h hopen rfl
      refine hrecv.andThen fun opened₁ h₁ ↦ ?_
      have hopen₁ := h₁.mem_opened hw
      refine (keeps_callback h₁ hopen₁ e.closes_read).andThen fun opened₂ h₂ ↦ ?_
      split
      · exact keeps_close_subsocket h₂ w
      · next hlen =>
          refine keeps_write_ev h₂ e fun hwrite ↦ ?_
          obtain ⟨hwrite, hcallback⟩ := Bool.and_eq_true_iff.mp hwrite
          have hcloses : work_callback = true → w ∉ e.closes_read := fun _ hmem ↦
            hown ⟨hcallback, hread, hwrite, Int.lt_of_not_ge hlen, hmem⟩
          obtain ⟨hw₂, hsame₂⟩ := callback_working h₁ hw hcloses
          rw [← hsame₂]
          exact h₂.mem_opened hw₂
  · exact keeps_write_ev h e fun _ ↦ hopen

end Server

/-- The system gives a descriptor that is none of those in use and not one of the first two; a
handler does not close its own connection while it is called for what was read, if there is
something and the connection is to be written as well. -/
def OwnKept (work_callback : Bool) (s : Server) : ServerEvent → Prop
  | .accept new_fd => new_fd < 0 ∨ 1 < new_fd ∧ new_fd ∉ s.served
  | .io e => ∀ w ∈ s.io_map.search e.fd,
      ¬(work_callback = true ∧ e.read = true ∧ e.write = true ∧ 0 < e.len ∧ w ∈ e.closes_read)
  | _ => True

instance decidableOwnKept (work_callback : Bool) (s : Server) :
    (e : ServerEvent) → Decidable (OwnKept work_callback s e)
  | .start => inferInstanceAs (Decidable True)
  | .accept _ => inferInstanceAs (Decidable (_ ∨ _))
  | .io _ => inferInstanceAs (Decidable (∀ w ∈ _, ¬_))
  | .close_subsocket _ => inferInstanceAs (Decidable True)

namespace Server

variable {rb : Rebalance (ℕ × ℕ)} {work_callback : Bool} {s : Server} {opened : List ℤ}

theorem keeps_serve (h : s.Sound opened) {e : ServerEvent} (he : OwnKept work_callback s e) :
    Keeps opened (s.serve rb work_callback e) := by
  cases e with
  | start => exact ⟨trivial, { h with started := nofun }⟩
  | accept fd =>
    rcases he with hneg | ⟨hfd, hnew⟩
    · have hle : fd ≤ 1 := by omega
      simpa [serve, listenfd_ev_callback, hneg, hle] using keeps_nil h
    · have hnot : fd ∉ opened := fun hmem ↦ hnew (h.served.mem_iff.mpr hmem)
      rw [serve, listenfd_ev_callback_eq hfd]
      exact ⟨⟨hnot, trivial⟩, h.hired hfd hnot⟩
  | io e =>
    rw [serve, activate_io]
    split
    · exact keeps_nil h
    · next w hsearch =>
        exact keeps_new_conn_ev_callback h (h.working_of_search hsearch).1 (he w hsearch)
  | close_subsocket w => exact keeps_close_subsocket h w

theorem Sound.idle (h : s.Sound opened) :
    ∀ w ∈ s.leisure_workers, w ∉ s.io_map.entries.map Prod.snd := by
  intro w hw hmem
  obtain ⟨es, hes, hsub⟩ := h.enrolled
  obtain ⟨⟨k, v⟩, hentry, rfl⟩ := List.mem_map.mp hmem
  have hworking := hsub.subset (hes.mem hentry).2
  exact List.disjoint_of_nodup_append h.nodup_lists hworking hw

theorem sound_new : new.Sound [] where
  lists := List.Perm.refl []
  served := List.Perm.refl []
  nodup := List.nodup_nil
  serving _ hw := nomatch hw
  resigned _ hw := nomatch hw
  enrolled := ⟨[], List.Perm.refl [], List.Subperm.refl []⟩
  started _ := rfl

theorem call_spec (h : s.Sound opened) {e : ServerEvent} (he : OwnKept work_callback s e) :
    ∃ s' o, s.call rb work_callback e = some (s', o) ∧ serverSpec.ok opened e o ∧
      s'.Sound (serverSpec.next opened e o) := by
  have hkeeps : Keeps opened (s.serve rb work_callback e) := keeps_serve h he
  obtain ⟨hacts, hsound⟩ := hkeeps
  exact ⟨_, _, rfl, ⟨hacts, hsound.lists, hsound.idle,
    hsound.served.nodup_iff.mpr hsound.nodup, hsound.served⟩, hsound⟩

end Server

end Invariant

/-- On every run on which no handler closes its own connection before it is called once more, the
lists, the event base and the descriptors agree behind every event. -/
theorem server_refines (rb : Rebalance (ℕ × ℕ)) (work_callback : Bool) {es : List ServerEvent}
    (hrun : Refine.Within (Server.call rb work_callback) serverSpec (OwnKept work_callback) .new []
      es) : Refine.Refines (Server.call rb work_callback) serverSpec .new [] es := by
  refine (Refine.refines_of_simulation (I := Server.Sound) ?_ Server.sound_new hrun).2
  intro s opened e h he
  exact Server.call_spec h he

/-- Two connections; the handler of the first closes both, the other is closed by its peer after
its handler has done so, and the worker that is free serves a third one. -/
theorem server_refines_few :
    Refine.Refines (Server.call (.small _) true) serverSpec .new []
      [.accept 5, .start, .accept 6, .io ⟨6, true, false, 3, [0, 1], [], 0⟩, .close_subsocket 1,
        .accept 6, .io ⟨6, true, true, 0, [1], [], 0⟩, .accept 7,
        .io ⟨7, true, true, 9, [], [0], 1⟩] :=
  server_refines (.small _) true (by decide)

/-- The handler closes the connection on what it has read and is called for it again. -/
theorem not_server_refines : ¬∀ (rb : Rebalance (ℕ × ℕ)) (work_callback : Bool)
    (es : List ServerEvent),
      Refine.Refines (Server.call rb work_callback) serverSpec .new [] es := by
  intro h
  have hrun := h (.small _) true [.start, .accept 5, .io ⟨5, true, true, 3, [0], [], 0⟩]
  revert hrun
  decide

end Libobject.Concurrent
