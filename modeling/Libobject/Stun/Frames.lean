import Libobject.Stun.Probe

/-!
# The frames of a session

Peers exchange frames over the socket that the replies of the servers also come to. A frame has a
magic number where a reply has its type and length, so that one callback tells the two apart. The
datagram lies in the buffer of the task, in front of what earlier datagrams left there.
-/

namespace Libobject.Stun.Frames

open Scan

def STUN_P2P_MAGIC : ℕ := 0x50325021

def STUN_P2P_MSG_KEEPALIVE : UInt8 := 1

def STUN_P2P_MSG_DATA : UInt8 := 2

def STUN_P2P_MAX_PAYLOAD : ℕ := 1400

def WORKER_TASK_MAX_BUF_LEN : ℕ := 10240

/-- `sizeof(stun_p2p_msg_t)`: the magic number, the type, a byte that nothing sets, the length. -/
def header_len : ℕ := 8

/-- What the node has for its sessions. -/
structure Node where
  stun_id : Text
  server_client : Bool
  signal_host : Bool
  recv_callback : Bool
  stun2 : Bool

structure Link where
  remote_id : Text
  active : Bool
  socket : Bool
  peer_host : Text
  peer_port : ℤ
  send_punch : Bool
  data_received : Bool
  session : Session

/-- The frame is `none` where -1 is returned; `pad` is the byte that the stack held. -/
def send_session_data (s : Link) (pad : UInt8) (buf : List UInt8) : Option (List UInt8) :=
  if buf.length > STUN_P2P_MAX_PAYLOAD then none
  else if !s.active || s.peer_host = [] || !s.socket then none
  else
    some (beBytes 4 STUN_P2P_MAGIC ++ [STUN_P2P_MSG_DATA, pad] ++ beBytes 2 buf.length ++ buf)

/-- A task: its buffer, and how much of it was received. -/
structure Task where
  buf : List UInt8
  buf_len : ℕ
  remote_host : Text
  remote_service : Text

/-- A datagram is received into the buffer of a task, as much of it as has room. -/
def ev_callback (buf datagram : List UInt8) (remote_host remote_service : Text) : Task :=
  let len := min datagram.length WORKER_TASK_MAX_BUF_LEN
  ⟨datagram.take len ++ buf.drop len, len, remote_host, remote_service⟩

/-- What was received. -/
def Task.datagram (t : Task) : List UInt8 := t.buf.take t.buf_len

/-- What the callback does for others: it sends `PUNCHOK` to the signal server, hands data to the
node, or goes on after a reply of a server. -/
inductive Event
  | punchok (line : Text)
  | recv_callback (data : List UInt8) (len : ℕ)
  | follow (f : Follow)

/-- The source of a frame is where the answers go. -/
def Link.learn (s : Link) (t : Task) : Link :=
  if t.remote_host = [] then s
  else { s with peer_host := t.remote_host.take 63, peer_port := atoi t.remote_service }

/-- The branch for the frames of the peer. -/
def on_frame (n : Node) (s : Link) (t : Task) : Link × List Event :=
  let rlen := beNat (field t.buf 6 2)
  let s := { s with data_received := true }.learn t
  let type := field t.buf 4 1
  if type = [STUN_P2P_MSG_KEEPALIVE] then
    if s.send_punch && n.server_client && n.signal_host then
      ({ s with send_punch := false },
        [.punchok ((ascii "PUNCHOK " ++ n.stun_id ++ 32 :: s.remote_id).take 95)])
    else (s, [])
  else if type = [STUN_P2P_MSG_DATA] then
    if n.recv_callback then (s, [.recv_callback (t.buf.drop header_len) rlen]) else (s, [])
  else (s, [])

/-- `none` where a reply of a server makes the code access what is not its own. -/
def on_session_recv (rb : Rebalance (ℕ × MappedAddress)) (n : Node) (s : Link) (t : Task) :
    Option (Link × List Event) :=
  if t.buf_len = 0 then some (s, [])
  else if IsStun t.datagram then do
    let ((_, f), session) ← Stun.on_session_recv rb n.stun2 s.session t.datagram
    return ({ s with session := session }, [.follow f])
  else if header_len ≤ t.buf_len ∧ beNat (field t.datagram 0 4) = STUN_P2P_MAGIC then
    some (on_frame n s t)
  else some (s, [])

/-! ## What the callback should be given -/

/-- The datagram is a frame of the DATA type. -/
def IsData (datagram : List UInt8) : Prop :=
  header_len ≤ datagram.length ∧ beNat (field datagram 0 4) = STUN_P2P_MAGIC ∧
    field datagram 4 1 = [STUN_P2P_MSG_DATA]

instance decidableIsData (datagram : List UInt8) : Decidable (IsData datagram) := instDecidableAnd

/-- The callback is called with no more than was received behind the header, and for frames of the
DATA type only. -/
def Bounded (datagram : List UInt8) (events : List Event) : Prop :=
  ∀ data len, .recv_callback data len ∈ events →
    IsData datagram ∧ header_len + len ≤ datagram.length

/-- A frame is delivered as `payload`, whatever the receiver is. -/
def Delivered (payload frame : List UInt8) : Prop :=
  ∀ (rb : Rebalance (ℕ × MappedAddress)) (n : Node) (s : Link) (buf : List UInt8)
    (remote_host remote_service : Text), n.recv_callback = true →
    ∃ s' data, on_session_recv rb n s (ev_callback buf frame remote_host remote_service) =
        some (s', [.recv_callback data payload.length]) ∧ data.take payload.length = payload

/-- A frame whose length goes past what was received, for a node that takes data. -/
def Overlong (n : Node) (datagram : List UInt8) : Prop :=
  n.recv_callback = true ∧ IsData datagram ∧
    datagram.length < header_len + beNat (field datagram 6 2)

/-! ## The branch for frames -/

theorem length_datagram (buf datagram : List UInt8) (remote_host remote_service : Text) :
    (ev_callback buf datagram remote_host remote_service).datagram.length =
      (ev_callback buf datagram remote_host remote_service).buf_len := by
  simp [ev_callback, Task.datagram]

variable {n : Node} {s : Link} {t : Task}

theorem on_frame_data (htype : field t.buf 4 1 = [STUN_P2P_MSG_DATA]) :
    (on_frame n s t).2 = if n.recv_callback then
      [.recv_callback (t.buf.drop header_len) (beNat (field t.buf 6 2))] else [] := by
  have hkeepalive : ¬ [STUN_P2P_MSG_DATA] = [STUN_P2P_MSG_KEEPALIVE] := by decide
  simp only [on_frame, htype]
  rw [if_neg hkeepalive, if_pos trivial]
  split <;> rfl

theorem on_frame_other (htype : field t.buf 4 1 ≠ [STUN_P2P_MSG_DATA]) (data : List UInt8)
    (len : ℕ) : .recv_callback data len ∉ (on_frame n s t).2 := by
  simp only [on_frame]
  rw [if_neg htype]
  split
  · split <;> simp
  · exact List.not_mem_nil

/-- What is not a reply of a server leads to a call of the node exactly if it is a frame of the DATA
type and the node takes data. -/
theorem on_session_recv_frame (rb : Rebalance (ℕ × MappedAddress)) (n : Node) (s : Link)
    (hlen : t.datagram.length = t.buf_len) (hstun : ¬ IsStun t.datagram) :
    ∃ s' events, on_session_recv rb n s t = some (s', events) ∧
      (IsData t.datagram → events = if n.recv_callback then
        [.recv_callback (t.buf.drop header_len) (beNat (field t.datagram 6 2))] else []) ∧
      (¬ IsData t.datagram → ∀ data len, .recv_callback data len ∉ events) := by
  rw [on_session_recv]
  split
  · next hzero =>
      refine ⟨_, _, rfl, fun hdata ↦ ?_, fun _ _ _ ↦ List.not_mem_nil⟩
      have hheader := hdata.1
      rw [hlen, hzero] at hheader
      exact (Nat.not_succ_le_zero _ hheader).elim
  · split
    · next hframe =>
        obtain ⟨hheader, hmagic⟩ := hframe
        have htype : field t.datagram 4 1 = field t.buf 4 1 :=
          field_take (le_trans (by decide) hheader)
        have hrlen : field t.datagram 6 2 = field t.buf 6 2 :=
          field_take (le_trans (by decide) hheader)
        refine ⟨(on_frame n s t).1, (on_frame n s t).2, rfl, fun hdata ↦ ?_, fun hother ↦ ?_⟩
        · rw [on_frame_data (htype.symm.trans hdata.2.2), hrlen]
        · refine on_frame_other fun hdata ↦ hother ⟨?_, hmagic, htype.trans hdata⟩
          rw [hlen]
          exact hheader
    · next hframe =>
        refine ⟨_, _, rfl, fun hdata ↦ ?_, fun _ _ _ ↦ List.not_mem_nil⟩
        exact (hframe ⟨hlen ▸ hdata.1, hdata.2.1⟩).elim

/-! ## Frames that a peer sends -/

theorem send_session_data_some {pad : UInt8} {payload frame : List UInt8}
    (h : send_session_data s pad payload = some frame) :
    payload.length ≤ STUN_P2P_MAX_PAYLOAD ∧
      frame = 0x50 :: 0x32 :: 0x50 :: 0x21 :: STUN_P2P_MSG_DATA :: pad ::
        (beBytes 2 payload.length ++ payload) := by
  rw [send_session_data] at h
  split at h
  · exact (Option.some_ne_none _ h.symm).elim
  · next hlen =>
      split at h
      · exact (Option.some_ne_none _ h.symm).elim
      · refine ⟨not_lt.mp hlen, (Option.some.inj h).symm.trans ?_⟩
        rw [show beBytes 4 STUN_P2P_MAGIC = [0x50, 0x32, 0x50, 0x21] by decide]
        simp

theorem send_session_data_isSome {pad : UInt8} {payload : List UInt8}
    (hlen : payload.length ≤ STUN_P2P_MAX_PAYLOAD) (hactive : s.active = true)
    (hsocket : s.socket = true) (hpeer : s.peer_host ≠ []) :
    (send_session_data s pad payload).isSome := by
  rw [send_session_data, if_neg (not_lt.mpr hlen), if_neg (by simp [hactive, hsocket, hpeer])]
  rfl

theorem delivered {pad : UInt8} {payload frame : List UInt8}
    (h : send_session_data s pad payload = some frame) : Delivered payload frame := by
  obtain ⟨hmax, rfl⟩ := send_session_data_some h
  intro rb n s buf remote_host remote_service hcallback
  obtain ⟨hi, lo, hbytes⟩ : ∃ hi lo, beBytes 2 payload.length = [hi, lo] :=
    List.length_eq_two.mp (length_beBytes 2 _)
  have hrlen : beNat [hi, lo] = payload.length := by
    rw [← hbytes, beNat_beBytes]
    exact Nat.mod_eq_of_lt (lt_of_le_of_lt hmax (by decide))
  rw [hbytes]
  generalize hframe : 0x50 :: 0x32 :: 0x50 :: 0x21 :: STUN_P2P_MSG_DATA :: pad ::
    ([hi, lo] ++ payload) = frame
  have hlen : frame.length = 8 + payload.length := by
    rw [← hframe]
    simp only [List.length_cons, List.length_append, List.length_nil]
    omega
  -- the frame fits in the buffer of the task
  have hroom : min frame.length WORKER_TASK_MAX_BUF_LEN = frame.length := by
    rw [hlen]
    simp only [WORKER_TASK_MAX_BUF_LEN, STUN_P2P_MAX_PAYLOAD] at hmax ⊢
    omega
  generalize ht : ev_callback buf frame remote_host remote_service = t
  have hbuf : t.buf = frame ++ buf.drop frame.length := by
    rw [← ht, ev_callback, hroom, List.take_length]
  have hgot : t.datagram = frame := by
    rw [Task.datagram, hbuf, ← ht, ev_callback, hroom, List.take_left]
  have hheader : 8 ≤ frame.length := by omega
  have hdata : IsData frame := by
    refine ⟨hheader, ?_, ?_⟩
    · rw [← hframe]
      rfl
    · rw [← hframe]
      rfl
  have hstun : ¬ IsStun t.datagram := by
    rw [hgot, ← hframe]
    exact fun h ↦ absurd (List.cons.inj h.2).1 (by decide)
  have hlength : t.datagram.length = t.buf_len := by
    rw [← ht]
    exact length_datagram _ _ _ _
  obtain ⟨s', events, hrecv, hevents, -⟩ := on_session_recv_frame rb (n := n) (s := s) hlength hstun
  rw [hgot] at hevents
  have hfield : field frame 6 2 = [hi, lo] := by
    rw [← hframe]
    rfl
  rw [hrecv, hevents hdata, if_pos hcallback, hfield, hrlen]
  refine ⟨s', _, rfl, ?_⟩
  rw [hbuf, ← hframe]
  exact List.take_left

/-! ## What is received -/

theorem bounded_iff (rb : Rebalance (ℕ × MappedAddress)) (n : Node) (s : Link)
    (hlen : t.datagram.length = t.buf_len) (hstun : ¬ IsStun t.datagram) :
    ∃ s' events, on_session_recv rb n s t = some (s', events) ∧
      (Bounded t.datagram events ↔ ¬ Overlong n t.datagram) := by
  obtain ⟨s', events, hrecv, hdata, hother⟩ := on_session_recv_frame rb n s hlen hstun
  refine ⟨s', events, hrecv, ?_⟩
  by_cases hframe : IsData t.datagram
  · rw [hdata hframe]
    by_cases hcallback : n.recv_callback = true
    · rw [if_pos hcallback]
      constructor
      · intro hbounded hlong
        exact absurd (hbounded _ _ List.mem_cons_self).2 (not_le.mpr hlong.2.2)
      · intro hshort data len hmem
        cases List.mem_singleton.mp hmem
        exact ⟨hframe, not_lt.mp fun hlong ↦ hshort ⟨hcallback, hframe, hlong⟩⟩
    · rw [if_neg hcallback]
      exact iff_of_true (fun _ _ hmem ↦ (List.not_mem_nil hmem).elim) fun hlong ↦ hcallback hlong.1
  · exact iff_of_true (fun data len hmem ↦ (hother hframe data len hmem).elim)
      fun hlong ↦ hframe hlong.2.1

/-- Frames of a peer are delivered as they were meant; what else comes and is no reply of a server
leads to good calls of the node exactly if it is not a frame that says it is longer. -/
theorem frames_iff (rb : Rebalance (ℕ × MappedAddress)) :
    (∀ (s : Link) (pad : UInt8) (payload : List UInt8), payload.length ≤ STUN_P2P_MAX_PAYLOAD →
      s.active = true → s.socket = true → s.peer_host ≠ [] →
        ∃ frame, send_session_data s pad payload = some frame ∧ Delivered payload frame) ∧
    ∀ (n : Node) (s : Link) (buf datagram : List UInt8) (remote_host remote_service : Text),
      let t := ev_callback buf datagram remote_host remote_service
      ¬ IsStun t.datagram → ∃ s' events, on_session_recv rb n s t = some (s', events) ∧
        (Bounded t.datagram events ↔ ¬ Overlong n t.datagram) := by
  constructor
  · intro s pad payload hlen hactive hsocket hpeer
    have hsome : (send_session_data s pad payload).isSome :=
      send_session_data_isSome hlen hactive hsocket hpeer
    obtain ⟨frame, hframe⟩ := Option.isSome_iff_exists.mp hsome
    exact ⟨frame, hframe, delivered hframe⟩
  · intro n s buf datagram remote_host remote_service t hstun
    exact bounded_iff rb n s (length_datagram _ _ _ _) hstun

/-- A frame without data that says it has 256 bytes. -/
theorem not_bounded : ¬ ∀ (rb : Rebalance (ℕ × MappedAddress)) (n : Node) (s : Link)
    (buf datagram : List UInt8) (remote_host remote_service : Text),
    let t := ev_callback buf datagram remote_host remote_service
    ¬ IsStun t.datagram → ∃ s' events, on_session_recv rb n s t = some (s', events) ∧
      Bounded t.datagram events := by
  intro h
  obtain ⟨s', events, hrecv, hbounded⟩ := h (.small _) ⟨[], true, true, true, false⟩
    ⟨[], true, true, [49], 9, false, false, ⟨⟨[], 0, false, .unknown⟩, .new [] []⟩⟩ []
    [0x50, 0x32, 0x50, 0x21, 2, 0, 1, 0] [] [] (by decide)
  cases hrecv
  have hlen := (hbounded _ _ List.mem_cons_self).2
  revert hlen
  decide

end Libobject.Stun.Frames
