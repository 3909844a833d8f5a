import Libobject.Lib.Run
import Mathlib.Algebra.Group.Int.Defs
import Mathlib.Algebra.Group.Nat.Defs
import Mathlib.Data.List.Basic
import Mathlib.Data.List.Infix
import Mathlib.Tactic.SplitIfs

/-!
# Files that are sent when a socket is writable

The bytes of a file go out in chunks that are read from it, as far as the socket takes them; what a
send has left is given back to the file by seeking. A call goes on until the socket is full, and the
next event continues it. A transfer is over when a call returns 1 or -1, which closes the file and
releases the request.
-/

namespace Libobject.FileSend

/-! ## Files and sockets -/

/-- An open `FILE` -/
structure File where
  content : List UInt8
  pos : ℕ
  eof : Bool

def File.fread (file : File) (size : ℕ) : List UInt8 × File :=
  let buf := (file.content.drop file.pos).take size
  (buf, ⟨file.content, file.pos + buf.length, file.eof || decide (buf.length < size)⟩)

/-- `fseek(file, -n, SEEK_CUR)` -/
def File.back (file : File) (n : ℕ) : File := ⟨file.content, file.pos - n, false⟩

/-- What a send that takes nothing ends with. -/
inductive Failure
  | wouldBlock
  | reset
  | error
  deriving DecidableEq

/-- What the socket does when it is writable: it has room for one byte and `room` more at each of
some sends, and fails after these. -/
structure Event where
  rooms : List ℕ
  failure : Failure

/-! ## Writing -/

/-- The file of a response with its counters, what has been written to the socket, and whether
`socket` and `len` have values. -/
structure Writing where
  file : File
  file_bytes_written : ℤ
  content_len : ℤ
  wire : List UInt8
  assigned : Bool

/-- The loop of `http_write_file` and the check behind it, with the number that is thrown. There is
no result where a variable without a value is used, or where the counter overflows. -/
def write_loop (failure : Failure) : List ℕ → Writing → Option (Writing × ℤ)
  | rooms, w =>
    if w.file.eof = false ∧ w.file_bytes_written < w.content_len then
      let (buf, file) := w.file.fread (1024 * 8)
      let len := buf.length
      if len = 0 then
        some ({ w with file, assigned := true }, if file.eof then 1 else -1)
      else
        match rooms with
        | [] =>
          match failure with
          | .wouldBlock => some ({ w with file := file.back len, assigned := true }, 0)
          | .reset => some ({ w with file, assigned := true }, 1)
          | .error => some ({ w with file, assigned := true }, -1)
        | room :: rooms =>
          let ret := min (room + 1) len
          if 2 ^ 31 ≤ w.file_bytes_written + ret then none
          else
            write_loop failure rooms
              { file := if ret < len then file.back (len - ret) else file
                file_bytes_written := w.file_bytes_written + ret
                content_len := w.content_len
                wire := w.wire ++ buf.take ret
                assigned := true }
    else if w.file_bytes_written = w.content_len ∧ w.assigned = false then none
    else some (w, if w.content_len ≤ w.file_bytes_written ∨ w.file.eof then 1 else 0)

structure Response where
  file : Option File
  file_bytes_written : ℤ
  content_len : ℤ

/-- What has been written to the socket, and how often a file has been closed. -/
structure Output where
  wire : List UInt8
  closes : ℕ

/-- `fclose`, if there is a file. -/
def Response.close (res : Response) (out : Output) : Response × Output :=
  match res.file with
  | some _ => ({ res with file := none }, { out with closes := out.closes + 1 })
  | none => (res, out)

def http_write_file (event : Event) (res : Response) (out : Output) :
    Option ((Response × Output) × ℤ) :=
  match res.file with
  | none => some ((res, out), -1)
  | some file =>
    (write_loop event.failure event.rooms
      ⟨file, res.file_bytes_written, res.content_len, out.wire, false⟩).map fun (w, ret) ↦
        let res : Response := ⟨some w.file, w.file_bytes_written, res.content_len⟩
        let out : Output := ⟨w.wire, out.closes⟩
        (if ret = 1 ∨ ret = -1 then res.close out else (res, out), ret)

/-- A connection: the request in the cache of its task, by its response, and what the calls of the
callback have returned. -/
structure Conn where
  cache : Option Response
  out : Output
  returned : List ℤ

/-- The request is destroyed with its response, which closes a file that it still has. -/
def http_work_for_write_callback (event : Event) (conn : Conn) : Option Conn :=
  match conn.cache with
  | none => some ⟨none, conn.out, conn.returned ++ [0]⟩
  | some res =>
    (if res.file.isNone then some ((res, conn.out), -1)
      else http_write_file event res conn.out).map fun ((res, out), ret) ↦
        if ret = 1 ∨ ret < 0 then ⟨none, (res.close out).2, conn.returned ++ [ret]⟩
        else ⟨some res, out, conn.returned ++ [ret]⟩

/-! ## Transfers -/

/-- The part of a file that a response announces. -/
structure Transfer where
  content : List UInt8
  offset : ℕ
  len : ℕ
  le : offset + len ≤ content.length

namespace Transfer

variable (tr : Transfer)

def body : List UInt8 := (tr.content.drop tr.offset).take tr.len

/-- The handler has opened the file, gone to the offset and assigned the length to an `int`. -/
def opened : Option Conn :=
  some ⟨some ⟨some ⟨tr.content, tr.offset, false⟩, 0, (BitVec.ofNat 32 tr.len).toInt⟩, ⟨[], 0⟩, []⟩

/-- What the socket has got is the beginning of the part, and it is the whole part exactly if a call
has returned 1. As long as all calls have returned 0, the file is open and stands behind what has
been sent; then it has been closed once and is gone with the request. -/
structure Sound (conn : Conn) : Prop where
  begins : conn.out.wire <+: tr.body
  complete : 1 ∈ conn.returned ↔ conn.out.wire = tr.body
  going : (∀ r ∈ conn.returned, r = 0) → conn.out.closes = 0 ∧
    conn.cache = some ⟨some ⟨tr.content, tr.offset + conn.out.wire.length, false⟩,
      conn.out.wire.length, tr.len⟩
  finished : ¬(∀ r ∈ conn.returned, r = 0) → conn.out.closes = 1 ∧ conn.cache = none

/-- The events of a socket, from the one state of a connection to the next. -/
def step (conn : Option Conn) (event : Event) : Option Conn :=
  conn.bind (http_work_for_write_callback event)

def IsSound (conn : Option Conn) : Prop := ∃ c, conn = some c ∧ tr.Sound c

/-- Nothing undefined happens, and all states are sound. -/
def Delivers (events : List Event) : Prop :=
  tr.IsSound tr.opened ∧ Run.Steps step (fun _ _ conn ↦ tr.IsSound conn) tr.opened events

/-- What is left of the part after some sends, each of which takes what the socket has room for of a
chunk of the file; none if a send takes more than is left. `rest` is the size of the file behind the
part. -/
def left (rest : ℕ) : ℕ → List ℕ → Option ℕ
  | m, [] => some m
  | m, room :: rooms =>
    if m = 0 then some 0
    else if min (room + 1) (min 8192 (m + rest)) ≤ m then
      left rest (m - min (room + 1) (min 8192 (m + rest))) rooms
    else none

def rest : ℕ := tr.content.length - (tr.offset + tr.len)

/-- No send takes more than is left of the part, and the socket is not reset before the end. -/
def Fits (conn : Option Conn) (event : Event) : Prop :=
  ∀ c, conn = some c → c.cache.isSome → ∃ m,
    left tr.rest (tr.len - c.out.wire.length) event.rooms = some m ∧
      (event.failure = .reset → m = 0)

/-! ## The loop -/

/-- The first bytes behind the offset. -/
def sent (n : ℕ) : List UInt8 := (tr.content.drop tr.offset).take n

/-- The loop when `n` bytes have been sent. -/
def writing (content_len : ℤ) (n : ℕ) (eof assigned : Bool) : Writing :=
  ⟨⟨tr.content, tr.offset + n, eof⟩, n, content_len, tr.sent n, assigned⟩

/-- The size of the chunk that is read behind `n` bytes. -/
def chunk (n : ℕ) : ℕ := min 8192 (tr.content.length - (tr.offset + n))

variable {tr} {failure : Failure} {rooms : List ℕ} {content_len : ℤ} {n : ℕ} {eof assigned : Bool}

theorem length_sent (h : tr.offset + n ≤ tr.content.length) : (tr.sent n).length = n := by
  rw [sent, List.length_take, List.length_drop, Nat.min_eq_left]
  omega

theorem sent_mono {m : ℕ} (h : n ≤ m) : tr.sent n <+: tr.sent m := by
  exact List.take_prefix_take_left h

theorem length_fread (n : ℕ) :
    ((tr.content.drop (tr.offset + n)).take (1024 * 8)).length = tr.chunk n := by
  rw [List.length_take, List.length_drop, chunk]

theorem sent_add {ret : ℕ} (h : ret ≤ 8192) :
    tr.sent n ++ ((tr.content.drop (tr.offset + n)).take (1024 * 8)).take ret =
      tr.sent (n + ret) := by
  rw [List.take_take, Nat.min_eq_left h, sent, sent, List.take_add, List.drop_drop]

theorem write_loop_cons (hn : tr.offset + n < tr.content.length) (hlt : (n : ℤ) < content_len)
    (room : ℕ) :
    write_loop failure (room :: rooms) (tr.writing content_len n false assigned) =
      if 2 ^ 31 ≤ (n : ℤ) + (min (room + 1) (tr.chunk n) : ℕ) then none
      else write_loop failure rooms (tr.writing content_len (n + min (room + 1) (tr.chunk n))
        (decide (tr.chunk n ≤ room + 1 ∧ tr.chunk n < 8192)) true) := by
  have hlen := tr.length_fread n
  have hpos : tr.chunk n ≠ 0 := by
    rw [chunk]
    omega
  rw [write_loop, writing, if_pos ⟨rfl, hlt⟩]
  dsimp only [File.fread]
  have hret : min (room + 1) (tr.chunk n) ≤ 8192 :=
    (Nat.min_le_right _ _).trans (Nat.min_le_left _ _)
  rw [hlen, if_neg hpos, sent_add hret, writing, Int.natCast_add]
  rcases Nat.lt_or_ge (room + 1) (tr.chunk n) with hpart | hall
  · have hback : tr.offset + n + tr.chunk n - (tr.chunk n - (room + 1)) =
        tr.offset + (n + (room + 1)) := by omega
    have heof : ¬(tr.chunk n ≤ room + 1 ∧ tr.chunk n < 8192) :=
      fun h ↦ absurd h.1 (Nat.not_le.mpr hpart)
    rw [Nat.min_eq_left hpart.le, if_pos hpart, File.back, hback, decide_eq_false heof]
  · have heof : (tr.chunk n ≤ room + 1 ∧ tr.chunk n < 8192) ↔ tr.chunk n < 1024 * 8 :=
      and_iff_right hall
    rw [Nat.min_eq_right hall, if_neg (Nat.lt_irrefl _), Bool.false_or, Nat.add_assoc]
    simp only [heof]

theorem write_loop_exit (h : content_len ≤ n) :
    write_loop failure rooms (tr.writing content_len n eof true) =
      some (tr.writing content_len n eof true, 1) := by
  have hcond : ¬(eof = false ∧ (n : ℤ) < content_len) := fun hlt ↦ absurd hlt.2 (Int.not_lt.mpr h)
  have hassigned : ¬((n : ℤ) = content_len ∧ true = false) := fun hnot ↦ absurd hnot.2 (by decide)
  rw [write_loop, writing, if_neg hcond, if_neg hassigned, if_pos (.inl h)]

theorem write_loop_nil (hn : tr.offset + n < tr.content.length) (hlt : (n : ℤ) < content_len) :
    (failure = .wouldBlock → write_loop failure [] (tr.writing content_len n false assigned) =
      some (tr.writing content_len n false true, 0)) ∧
    (failure ≠ .wouldBlock → ∃ w,
      write_loop failure [] (tr.writing content_len n false assigned) =
        some (w, if failure = .reset then 1 else -1) ∧ w.wire = tr.sent n) := by
  have hlen := tr.length_fread n
  have hpos : tr.chunk n ≠ 0 := by
    rw [chunk]
    omega
  rw [write_loop, writing, if_pos ⟨rfl, hlt⟩]
  dsimp only [File.fread]
  rw [hlen, if_neg hpos]
  cases failure with
  | wouldBlock =>
    refine ⟨fun _ ↦ ?_, fun h ↦ absurd rfl h⟩
    rw [File.back, Nat.add_sub_cancel, writing]
  | reset =>
    refine ⟨fun h ↦ ?_, fun _ ↦ ⟨_, rfl, rfl⟩⟩
    cases h
  | error =>
    refine ⟨fun h ↦ ?_, fun _ ↦ ⟨_, rfl, rfl⟩⟩
    cases h

theorem wire_grows {w w' : Writing} {ret : ℤ} (h : write_loop failure rooms w = some (w', ret)) :
    w.wire <+: w'.wire := by
  induction rooms generalizing w with
  | nil =>
    rw [write_loop] at h
    cases failure <;>
    · dsimp only at h
      split_ifs at h <;> cases h <;> exact List.prefix_rfl
  | cons room rooms ih =>
    rw [write_loop] at h
    dsimp only at h
    split_ifs at h
    · cases h
      exact List.prefix_rfl
    · cases h
      exact List.prefix_rfl
    · exact (List.prefix_append _ _).trans (ih h)
    · exact (List.prefix_append _ _).trans (ih h)
    · cases h
      exact List.prefix_rfl
    · cases h
      exact List.prefix_rfl

/-- The loop can go on, or it has sent all that there is to send. -/
def Ready (tr : Transfer) (n : ℕ) (eof assigned : Bool) : Prop :=
  (n < tr.len ∧ eof = false) ∨ (n = tr.len ∧ assigned = true)

theorem chunk_eq (h : n ≤ tr.len) : tr.chunk n = min 8192 (tr.len - n + tr.rest) := by
  have hle := tr.le
  rw [chunk, rest]
  congr 1
  omega

theorem ready_add (hn : n < tr.len) {room : ℕ} (h : min (room + 1) (tr.chunk n) ≤ tr.len - n) :
    tr.Ready (n + min (room + 1) (tr.chunk n))
      (decide (tr.chunk n ≤ room + 1 ∧ tr.chunk n < 8192)) true := by
  rcases Nat.lt_or_ge (n + min (room + 1) (tr.chunk n)) tr.len with hlt | hge
  · refine .inl ⟨hlt, decide_eq_false fun hend ↦ ?_⟩
    rw [chunk_eq hn.le] at hlt hend
    omega
  · exact .inr ⟨by omega, rfl⟩

/-- What the loop comes to when `m` bytes of the part are left. -/
structure Stopped (tr : Transfer) (failure : Failure) (m : ℕ) (w : Writing) (ret : ℤ) : Prop where
  wire : w.wire = tr.sent (tr.len - m)
  ret_eq : ret = if m = 0 then 1 else
    match failure with
    | .wouldBlock => 0
    | .reset => 1
    | .error => -1
  going : ret = 0 → w = tr.writing tr.len (tr.len - m) false true

theorem stopped_zero : ∃ w ret,
    write_loop failure rooms (tr.writing tr.len tr.len eof true) = some (w, ret) ∧
      tr.Stopped failure 0 w ret :=
  ⟨_, 1, write_loop_exit (Int.le_refl _), rfl, rfl, fun h ↦ absurd h (by decide)⟩

theorem stopped_nil (hn : n < tr.len) : ∃ w ret,
    write_loop failure [] (tr.writing tr.len n false assigned) = some (w, ret) ∧
      tr.Stopped failure (tr.len - n) w ret := by
  have hle := tr.le
  have hm : tr.len - n ≠ 0 := Nat.sub_ne_zero_of_lt hn
  have hback : tr.len - (tr.len - n) = n := Nat.sub_sub_self hn.le
  have hin : tr.offset + n < tr.content.length := by omega
  obtain ⟨hblock, hfail⟩ :=
    @write_loop_nil tr failure tr.len n assigned hin (Int.ofNat_lt.mpr hn)
  cases failure with
  | wouldBlock =>
    refine ⟨_, 0, hblock rfl, ?_, ?_, fun _ ↦ ?_⟩
    · rw [hback, writing]
    · rw [if_neg hm]
    · rw [hback]
  | reset =>
    obtain ⟨w, hw, hwire⟩ := hfail (by decide)
    refine ⟨w, 1, hw, ?_, ?_, fun h ↦ absurd h (by decide)⟩
    · rw [hback, hwire]
    · rw [if_neg hm]
  | error =>
    obtain ⟨w, hw, hwire⟩ := hfail (by decide)
    refine ⟨w, -1, hw, ?_, ?_, fun h ↦ absurd h (by decide)⟩
    · rw [hback, hwire]
    · rw [if_neg hm]

theorem stopped_of_left (failure : Failure) (hint : tr.len < 2 ^ 31)
    (hready : tr.Ready n eof assigned) {m : ℕ}
    (h : left tr.rest (tr.len - n) rooms = some m) :
    ∃ w ret, write_loop failure rooms (tr.writing tr.len n eof assigned) = some (w, ret) ∧
      tr.Stopped failure m w ret := by
  induction rooms generalizing n eof assigned with
  | nil =>
    obtain rfl : tr.len - n = m := Option.some.inj h
    rcases hready with ⟨hlt, rfl⟩ | ⟨rfl, rfl⟩
    · exact stopped_nil hlt
    · rw [Nat.sub_self]
      exact stopped_zero
  | cons room rooms ih =>
    rw [left] at h
    rcases hready with ⟨hlt, rfl⟩ | ⟨rfl, rfl⟩
    · have hle := tr.le
      rw [if_neg (Nat.sub_ne_zero_of_lt hlt), ← chunk_eq hlt.le] at h
      split_ifs at h with hfits
      rw [Nat.sub_sub] at h
      have hsmall : ¬2 ^ 31 ≤ (n : ℤ) + (min (room + 1) (tr.chunk n) : ℕ) := by omega
      rw [write_loop_cons (by omega) (Int.ofNat_lt.mpr hlt), if_neg hsmall]
      exact ih (ready_add hlt hfits) h
    · rw [if_pos (Nat.sub_self _)] at h
      obtain rfl : 0 = m := Option.some.inj h
      exact stopped_zero

theorem over_of_left (hready : tr.Ready n eof assigned) (h : left tr.rest (tr.len - n) rooms = none)
    {w : Writing} {ret : ℤ}
    (hw : write_loop failure rooms (tr.writing tr.len n eof assigned) = some (w, ret)) :
    tr.len < w.wire.length := by
  induction rooms generalizing n eof assigned with
  | nil => cases h
  | cons room rooms ih =>
    rw [left] at h
    rcases hready with ⟨hlt, rfl⟩ | ⟨rfl, rfl⟩
    · have hle := tr.le
      rw [if_neg (Nat.sub_ne_zero_of_lt hlt), ← chunk_eq hlt.le] at h
      rw [write_loop_cons (by omega) (Int.ofNat_lt.mpr hlt)] at hw
      split_ifs at h hw with hfits
      · rw [Nat.sub_sub] at h
        exact ih (ready_add hlt hfits) h hw
      · have hwire := (wire_grows hw).length_le
        have hin : n + min (room + 1) (tr.chunk n) ≤ tr.content.length - tr.offset := by
          rw [chunk]
          omega
        rw [writing, length_sent (by omega)] at hwire
        omega
    · rw [if_pos (Nat.sub_self _)] at h
      cases h

/-! ## The callback -/

theorem callback_eq {conn : Conn} {file : File} {written : ℤ} (event : Event)
    (h : conn.cache = some ⟨some file, written, content_len⟩) :
    http_work_for_write_callback event conn =
      (write_loop event.failure event.rooms
        ⟨file, written, content_len, conn.out.wire, false⟩).map fun (w, ret) ↦
          if ret = 1 ∨ ret < 0 then
            ⟨none, ⟨w.wire, conn.out.closes + 1⟩, conn.returned ++ [ret]⟩
          else
            ⟨some ⟨some w.file, w.file_bytes_written, content_len⟩, ⟨w.wire, conn.out.closes⟩,
              conn.returned ++ [ret]⟩ := by
  rw [http_work_for_write_callback, h]
  dsimp only [Option.isNone_some, http_write_file]
  rw [if_neg (by decide), Option.map_map]
  congr 1
  funext ⟨w, ret⟩
  dsimp only [Function.comp_apply]
  by_cases hover : ret = 1 ∨ ret < 0
  · rw [if_pos hover, if_pos hover]
    split_ifs <;> rfl
  · have hopen : ¬(ret = 1 ∨ ret = -1) := by omega
    rw [if_neg hover, if_neg hover, if_neg hopen]

theorem Sound.none {conn : Conn} (h : tr.Sound conn) (hcache : conn.cache = none) :
    tr.Sound ⟨none, conn.out, conn.returned ++ [0]⟩ := by
  have hover : ¬∀ r ∈ conn.returned, r = 0 := by
    intro hzero
    have hgoing := (h.going hzero).2
    rw [hcache] at hgoing
    cases hgoing
  refine ⟨h.begins, ?_, fun hzero ↦ ?_, fun _ ↦ ⟨(h.finished hover).1, rfl⟩⟩
  · rw [List.mem_append]
    simpa using h.complete
  · exact absurd (fun r hr ↦ hzero r (List.mem_append_left _ hr)) hover

theorem Sound.some {conn : Conn} (h : tr.Sound conn) (hcache : conn.cache.isSome) :
    (∀ r ∈ conn.returned, r = 0) ∧ conn.out.wire.length < tr.len ∧
      conn.out.wire = tr.sent conn.out.wire.length := by
  have hzero : ∀ r ∈ conn.returned, r = 0 := by
    by_contra hnot
    rw [(h.finished hnot).2] at hcache
    cases hcache
  have hbody : tr.body.length = tr.len := length_sent tr.le
  have htake := List.prefix_iff_eq_take.mp h.begins
  have hle := h.begins.length_le
  rw [hbody] at hle
  have hne : conn.out.wire.length ≠ tr.len := by
    intro heq
    have hone := h.complete.mpr (h.begins.eq_of_length (heq.trans hbody.symm))
    exact absurd (hzero 1 hone) (by decide)
  refine ⟨hzero, Nat.lt_of_le_of_ne hle hne, ?_⟩
  rwa [body, List.take_take, Nat.min_eq_left hle] at htake

theorem sent_eq_body {m : ℕ}
    (hm : m ≤ tr.len) : tr.sent (tr.len - m) = tr.body ↔ m = 0 ∨ tr.len = 0 := by
  have hle := tr.le
  constructor
  · intro h
    have hlen := congrArg List.length h
    rw [length_sent (by omega), show tr.body = tr.sent tr.len from rfl, length_sent hle] at hlen
    omega
  · intro h
    rw [show tr.len - m = tr.len by omega]
    rfl

theorem Stopped.cases {m : ℕ} {w : Writing} {ret : ℤ} (h : tr.Stopped failure m w ret) :
    (ret = 0 ∧ m ≠ 0 ∧ failure = .wouldBlock) ∨
      ((ret = 1 ∨ ret < 0) ∧ ((ret = 1 ↔ m = 0) ↔ (failure = .reset → m = 0))) := by
  have hret := h.ret_eq
  split_ifs at hret with hm
  · exact .inr ⟨.inl hret, iff_of_true (iff_of_true hret hm) fun _ ↦ hm⟩
  · cases failure with
    | wouldBlock => exact .inl ⟨hret, hm, rfl⟩
    | reset =>
      refine .inr ⟨.inl hret, iff_of_false (fun h ↦ hm (h.mp hret)) fun h ↦ hm (h rfl)⟩
    | error =>
      obtain rfl : ret = -1 := hret
      have hne : (-1 : ℤ) ≠ 1 := by decide
      have hreset : Failure.error ≠ .reset := by decide
      exact .inr ⟨.inr (by decide), iff_of_true (iff_of_false hne hm) fun h ↦ absurd h hreset⟩

theorem sound_of_stopped {conn : Conn} (h : tr.Sound conn) (hcache : conn.cache.isSome) {m : ℕ}
    (hm : m ≤ tr.len) {w : Writing} {ret : ℤ} (hstop : tr.Stopped failure m w ret) :
    tr.Sound (if ret = 1 ∨ ret < 0 then
        ⟨none, ⟨w.wire, conn.out.closes + 1⟩, conn.returned ++ [ret]⟩
      else
        ⟨some ⟨some w.file, w.file_bytes_written, tr.len⟩, ⟨w.wire, conn.out.closes⟩,
          conn.returned ++ [ret]⟩) ↔ (failure = .reset → m = 0) := by
  obtain ⟨hzero, hlt, -⟩ := h.some hcache
  have hcloses := (h.going hzero).1
  have hbegins : w.wire <+: tr.body := hstop.wire ▸ sent_mono (Nat.sub_le _ _)
  have hwhole : w.wire = tr.body ↔ m = 0 := by
    rw [hstop.wire, sent_eq_body hm]
    omega
  have hone : 1 ∈ conn.returned ++ [ret] ↔ ret = 1 := by
    rw [List.mem_append, List.mem_singleton, eq_comm (b := ret)]
    exact or_iff_right fun hmem ↦ absurd (hzero 1 hmem) (by decide)
  have hall : (∀ r ∈ conn.returned ++ [ret], r = 0) ↔ ret = 0 := by
    constructor
    · intro hzeros
      exact hzeros ret (List.mem_append_right _ List.mem_cons_self)
    · intro hret r hr
      rcases List.mem_append.mp hr with hr | hr
      · exact hzero r hr
      · exact (List.mem_singleton.mp hr).trans hret
  rcases hstop.cases with ⟨rfl, hne, hblock⟩ | ⟨hover, hiff⟩
  · refine iff_of_true ?_ fun hreset ↦ ?_
    · have hw := hstop.going rfl
      have hlen : w.wire.length = tr.len - m := by
        have hle := tr.le
        rw [hstop.wire, length_sent (by omega)]
      rw [if_neg (by decide)]
      refine ⟨hbegins, ?_, fun _ ↦ ⟨hcloses, ?_⟩, fun hnot ↦ absurd (hall.mpr rfl) hnot⟩
      · rw [hone, hwhole]
        exact iff_of_false (by decide) hne
      · dsimp only
        rw [hlen, hw]
        rfl
    · rw [hblock] at hreset
      cases hreset
  · have hne : ret ≠ 0 := by omega
    rw [if_pos hover, ← hiff]
    constructor
    · intro hsound
      exact hone.symm.trans (hsound.complete.trans hwhole)
    · intro hret
      refine ⟨hbegins, hone.trans (hret.trans hwhole.symm), fun hzeros ↦ ?_, fun _ ↦ ⟨?_, rfl⟩⟩
      · exact absurd (hall.mp hzeros) hne
      · dsimp only
        rw [hcloses]

theorem left_le {k m : ℕ} (h : left k n rooms = some m) : m ≤ n := by
  induction rooms generalizing n with
  | nil => exact (Option.some.inj h).ge
  | cons room rooms ih =>
    rw [left] at h
    split_ifs at h with hzero hfits
    · exact (Option.some.inj h).ge.trans (Nat.zero_le n)
    · exact (ih h).trans (Nat.sub_le _ _)

theorem isSound_some {conn : Conn} : tr.IsSound (some conn) ↔ tr.Sound conn := by
  constructor
  · rintro ⟨c, hc, h⟩
    obtain rfl := Option.some.inj hc
    exact h
  · intro h
    exact ⟨conn, rfl, h⟩

theorem fits_iff {conn : Conn} (event : Event) (hcache : conn.cache.isSome) :
    tr.Fits (some conn) event ↔ ∃ m,
      left tr.rest (tr.len - conn.out.wire.length) event.rooms = some m ∧
        (event.failure = .reset → m = 0) := by
  constructor
  · intro h
    exact h conn rfl hcache
  · rintro h c hc -
    obtain rfl := Option.some.inj hc
    exact h

theorem isSound_step_iff (hint : tr.len < 2 ^ 31) {conn : Conn} (h : tr.Sound conn)
    (event : Event) :
    tr.IsSound (step (some conn) event) ↔ tr.Fits (some conn) event := by
  cases hcache : conn.cache with
  | none =>
    have hstep : step (some conn) event = some ⟨none, conn.out, conn.returned ++ [0]⟩ := by
      rw [step, Option.bind_some, http_work_for_write_callback, hcache]
    refine iff_of_true ⟨_, hstep, h.none hcache⟩ fun c hc hsome ↦ ?_
    obtain rfl := Option.some.inj hc
    rw [hcache] at hsome
    cases hsome
  | some res =>
    have hsome : conn.cache.isSome := by rw [hcache, Option.isSome_some]
    obtain ⟨hzero, hlt, hwire⟩ := h.some hsome
    have hready : tr.Ready conn.out.wire.length false false := .inl ⟨hlt, rfl⟩
    have hstart : (⟨⟨tr.content, tr.offset + conn.out.wire.length, false⟩, conn.out.wire.length,
        tr.len, conn.out.wire, false⟩ : Writing) =
          tr.writing tr.len conn.out.wire.length false false := by
      rw [writing, ← hwire]
    rw [step, Option.bind_some, callback_eq event (h.going hzero).2, hstart, fits_iff event hsome]
    cases hleft : left tr.rest (tr.len - conn.out.wire.length) event.rooms with
    | some m =>
      obtain ⟨w, ret, hloop, hstop⟩ := stopped_of_left event.failure hint hready hleft
      have hm : m ≤ tr.len := (left_le hleft).trans (Nat.sub_le _ _)
      have hiff := sound_of_stopped h hsome hm hstop
      rw [hloop, Option.map_some, isSound_some, hiff]
      simp
    | none =>
      refine iff_of_false ?_ fun ⟨m, hm, _⟩ ↦ absurd hm (by simp)
      rintro ⟨c, hc, hsound⟩
      obtain ⟨⟨w, ret⟩, hloop, rfl⟩ := Option.map_eq_some_iff.mp hc
      have hover := over_of_left hready hleft hloop
      have hle := hsound.begins.length_le
      dsimp only at hle
      have hbody : tr.body.length = tr.len := length_sent tr.le
      split_ifs at hle <;>
      · rw [hbody] at hle
        exact absurd hle (Nat.not_le.mpr hover)

theorem toInt_len (h : tr.len < 2 ^ 31) : (BitVec.ofNat 32 tr.len).toInt = tr.len := by
  rw [BitVec.toInt_ofNat', Int.bmod_eq_of_le (by omega) (by omega)]

theorem isSound_opened_iff : tr.IsSound tr.opened ↔ 0 < tr.len ∧ tr.len < 2 ^ 31 := by
  have hbody : tr.body.length = tr.len := length_sent tr.le
  rw [opened, isSound_some]
  constructor
  · intro hsound
    refine ⟨?_, ?_⟩
    · by_contra hzero
      have hnil : tr.body = [] := List.length_eq_zero_iff.mp (by omega)
      cases hsound.complete.mpr hnil.symm
    · have hres := (hsound.going fun r hr ↦ absurd hr List.not_mem_nil).2
      have hlen : (BitVec.ofNat 32 tr.len).toInt = tr.len :=
        congrArg Response.content_len (Option.some.inj hres)
      have hlt : (BitVec.ofNat 32 tr.len).toInt < 2 ^ 31 := BitVec.toInt_lt
      omega
  · rintro ⟨hpos, hint⟩
    rw [toInt_len hint]
    refine ⟨List.nil_prefix, ?_, fun _ ↦ ⟨rfl, rfl⟩, fun hnot ↦ ?_⟩
    · refine iff_of_false List.not_mem_nil fun hnil ↦ ?_
      rw [← hbody, ← hnil] at hpos
      exact absurd hpos (Nat.lt_irrefl 0)
    · exact absurd (fun r hr ↦ absurd hr List.not_mem_nil) hnot

/-- The runs that deliver the part are those of parts whose lengths are positive and fit in an
`int`, where no send takes more than is left and the socket is not reset before the end. -/
theorem delivers_part_iff (tr : Transfer) (events : List Event) :
    tr.Delivers events ↔ (0 < tr.len ∧ tr.len < 2 ^ 31) ∧
      Run.Steps step (fun conn event _ ↦ tr.Fits conn event) tr.opened events := by
  rw [Delivers, isSound_opened_iff]
  refine and_congr_right fun hlen ↦ ?_
  have hstep (conn : Option Conn) (event : Event) (h : tr.IsSound conn) :
      tr.IsSound (step conn event) ↔ tr.Fits conn event := by
    obtain ⟨c, rfl, hc⟩ := h
    exact isSound_step_iff hlen.2 hc event
  exact Run.steps_iff_of_invariant (I := tr.IsSound) hstep
    (fun conn event h hfits ↦ (hstep conn event h).mpr hfits) (isSound_opened_iff.mpr hlen)

/-- The first byte of a file of two bytes -/
def firstByte : Transfer := ⟨[1, 2], 0, 1, by decide⟩

theorem not_delivers_part : ¬∀ (tr : Transfer) (events : List Event), tr.Delivers events := by
  intro h
  obtain ⟨conn, hconn, hsound⟩ := (h firstByte [⟨[1], .wouldBlock⟩]).2.1
  obtain rfl : ⟨none, ⟨[1, 2], 1⟩, [1]⟩ = conn := Option.some.inj hconn
  exact absurd hsound.begins.length_le (by decide)

end Transfer

end Libobject.FileSend
