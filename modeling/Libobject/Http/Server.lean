import Libobject.Http.Request
import Libobject.Lib.Refine

/-!
# Receiving requests

The callback of a connection for what arrives on it. The cache of the connection holds the request
that is being read, and the one whose response is a file that is still being sent.
-/

namespace Libobject.Http

open Scan

/-- What `process_request` is handed of a request. -/
structure Handed where
  method : Text
  uri : Text
  headers : List (Text × Text)
  body : List UInt8
  deriving DecidableEq

def Request.handed (req : Request) : Handed where
  method := req.method
  uri := req.uri
  headers := req.headers.entries
  body := (req.body.addr.drop req.body.r_offset).take req.body.get_len

/-- `recv` is a chunk that arrives; `file` tells whether the response to the request that it
completes is a file. `sent` is the end of the sending of that file. -/
inductive Event
  | recv (buf : List UInt8) (file : Bool)
  | sent
  deriving DecidableEq

/-- The requests that an event hands to `process_request`, and whether it reports an error. -/
structure Output where
  processed : List Handed
  error : Bool
  deriving DecidableEq

/-- The loop that writes a chunk into the ring buffer and reads the request, with the value that
the last read returns. A turn that can write nothing and reads nothing goes on for ever. -/
def feed (rb : Rebalance (Text × Text)) : ℕ → Request → List UInt8 → Option (Request × ℤ)
  | 0, _, _ => none
  | fuel + 1, req, buf => do
    let (buffer, answer) ← req.buffer.call (.write buf)
    let rest := buf.drop (answer.ret.getD 0)
    let (req, read_ret) ← { req with buffer := buffer }.read rb
    if read_ret = 1 ∨ read_ret < 0 then return (req, read_ret)
    else if rest = [] then return (req, read_ret)
    else feed rb fuel req rest

/-- `__http_work_for_read_callback`; an empty chunk stands for the end of the connection. -/
def http_work_for_read_callback (rb : Rebalance (Text × Text)) (cache : Option Request)
    (buf : List UInt8) (file : Bool) : Option (Option Request × Output) :=
  if buf = [] then some (none, ⟨[], false⟩)
  else do
    let (req, read_ret) ← feed rb (buf.length + 1) (cache.getD .new) buf
    if read_ret = 1 then return (if file then some req else none, ⟨[req.handed], false⟩)
    else if read_ret < 0 then return (none, ⟨[], true⟩)
    else return (some req, ⟨[], false⟩)

def serve (rb : Rebalance (Text × Text)) (cache : Option Request) :
    Event → Option (Option Request × Output)
  | .recv buf file => http_work_for_read_callback rb cache buf file
  | .sent => some (none, ⟨[], false⟩)

/-! ## The requests of a connection -/

/-- A header field, with everything behind the colon. -/
structure Header where
  name : Text
  raw : Text
  deriving DecidableEq

def Header.line (h : Header) : Text := h.name ++ 58 :: h.raw

def Header.IsContentLength (h : Header) : Prop := str_to_lower h.name = ascii "content-length"

instance Header.decidableIsContentLength (h : Header) : Decidable h.IsContentLength :=
  inferInstanceAs (Decidable (_ = _))

structure Message where
  method : Text
  uri : Text
  version : Text
  headers : List Header
  body : List UInt8
  deriving DecidableEq

/-- A word of the start line or the name of a header. -/
def Word (s : Text) : Prop := s ≠ [] ∧ ∀ c ∈ s, c ≠ 0 ∧ isSpace c = false

instance decidableWord (s : Text) : Decidable (Word s) := inferInstanceAs (Decidable (_ ∧ _))

structure Header.WellFormed (h : Header) : Prop where
  name : Word h.name
  colon : 58 ∉ h.name
  raw : ∀ c ∈ h.raw, c ≠ 0 ∧ c ≠ 13 ∧ c ≠ 10

instance Header.decidableWellFormed (h : Header) : Decidable h.WellFormed :=
  have : Decidable (∀ c ∈ h.raw, c ≠ 0 ∧ c ≠ 13 ∧ c ≠ 10) := List.decidableBAll _ h.raw
  decidable_of_iff (Word h.name ∧ 58 ∉ h.name ∧ ∀ c ∈ h.raw, c ≠ 0 ∧ c ≠ 13 ∧ c ≠ 10)
    ⟨fun ⟨h₁, h₂, h₃⟩ ↦ ⟨h₁, h₂, h₃⟩, fun ⟨h₁, h₂, h₃⟩ ↦ ⟨h₁, h₂, h₃⟩⟩

namespace Message

def start_line (m : Message) : Text := m.method ++ 32 :: (m.uri ++ 32 :: m.version)

def head (m : Message) : List UInt8 :=
  m.start_line ++ (CRLF ++ (m.headers.flatMap (fun h ↦ h.line ++ CRLF) ++ CRLF))

/-- The bytes of a request on the connection. -/
def wire (m : Message) : List UInt8 := m.head ++ m.body

/-- The body is as long as the header says, and empty if none does. -/
structure WellFormed (m : Message) : Prop where
  method : Word m.method
  uri : Word m.uri
  version : Word m.version
  headers : ∀ h ∈ m.headers, h.WellFormed
  length : ∀ h ∈ m.headers, h.IsContentLength → atoi (trim h.raw) = m.body.length
  noLength : (∀ h ∈ m.headers, ¬h.IsContentLength) → m.body = []

instance decidableWellFormed (m : Message) : Decidable m.WellFormed :=
  decidable_of_iff (Word m.method ∧ Word m.uri ∧ Word m.version ∧ (∀ h ∈ m.headers, h.WellFormed) ∧
      (∀ h ∈ m.headers, h.IsContentLength → atoi (trim h.raw) = m.body.length) ∧
        ((∀ h ∈ m.headers, ¬h.IsContentLength) → m.body = []))
    ⟨fun ⟨h₁, h₂, h₃, h₄, h₅, h₆⟩ ↦ ⟨h₁, h₂, h₃, h₄, h₅, h₆⟩,
      fun ⟨h₁, h₂, h₃, h₄, h₅, h₆⟩ ↦ ⟨h₁, h₂, h₃, h₄, h₅, h₆⟩⟩

/-- The map of the headers, in the order of their names. -/
def headerMap (rb : Rebalance (Text × Text)) (hs : List Header) : RbTreeMap strcmp Text :=
  hs.foldl (fun map h ↦ map.add rb (str_to_lower h.name) (trim h.raw)) RbTreeMap.empty

/-- What should be handed to `process_request`. -/
def handed (rb : Rebalance (Text × Text)) (m : Message) : Handed where
  method := m.method
  uri := (read_form m.uri).uri
  headers := (headerMap rb m.headers).entries
  body := m.body

end Message

/-- The messages that are still to come, the bytes of the first one that have arrived, and whether
a file is being sent. -/
structure Stream where
  rest : List Message
  done : ℕ
  sending : Bool
  deriving DecidableEq

namespace Stream

/-- The messages that are complete when `n` bytes have arrived, and what is left. -/
def complete : List Message → ℕ → List Message × List Message × ℕ
  | [], n => ([], [], n)
  | m :: ms, n =>
    if m.wire.length ≤ n then
      let r := complete ms (n - m.wire.length)
      (m :: r.1, r.2)
    else ([], m :: ms, n)

/-- The bytes that are still to come. -/
def bytes (s : Stream) : List UInt8 := (s.rest.flatMap Message.wire).drop s.done

def next (s : Stream) : Event → Stream
  | .recv buf file =>
    let r := complete s.rest (s.done + buf.length)
    ⟨r.2.1, r.2.2, s.sending || (r.1 ≠ [] && file)⟩
  | .sent => { s with sending := false }

end Stream

/-- Every request is handed over once, with the chunk that completes it, and nothing else is
reported. -/
def requests (rb : Rebalance (Text × Text)) : Spec Stream Event Output where
  ok s
    | .recv buf _, o =>
      o = ⟨(Stream.complete s.rest (s.done + buf.length)).1.map (Message.handed rb), false⟩
    | .sent, o => o = ⟨[], false⟩
  next s e _ := s.next e

instance decidableOk (rb : Rebalance (Text × Text)) (s : Stream) (e : Event) (o : Output) :
    Decidable ((requests rb).ok s e o) := by
  cases e <;> exact inferInstanceAs (Decidable (_ = _))

/-- A chunk is part of what the client sends; a file is sent only after a request for it. -/
def Arrives (s : Stream) : Event → Prop
  | .recv buf _ => buf ≠ [] ∧ buf <+: s.bytes
  | .sent => s.sending = true

instance decidableArrives (s : Stream) : (e : Event) → Decidable (Arrives s e)
  | .recv _ _ => inferInstanceAs (Decidable (_ ∧ _))
  | .sent => inferInstanceAs (Decidable (_ = _))

/-- A request that the stages take as it is: what stands behind a colon is not empty, the forms of
the uri can be read, and its body is no longer than a buffer can become. -/
structure Message.Readable (m : Message) : Prop where
  raw : ∀ h ∈ m.headers, h.raw ≠ []
  form : 0 ≤ (read_form m.uri).ret
  body : m.body.length < 2 ^ 31 - 2 ^ 20

instance Message.decidableReadable (m : Message) : Decidable m.Readable :=
  decidable_of_iff ((∀ h ∈ m.headers, h.raw ≠ []) ∧ 0 ≤ (read_form m.uri).ret ∧
      m.body.length < 2 ^ 31 - 2 ^ 20)
    ⟨fun ⟨h₁, h₂, h₃⟩ ↦ ⟨h₁, h₂, h₃⟩, fun ⟨h₁, h₂, h₃⟩ ↦ ⟨h₁, h₂, h₃⟩⟩

/-- No chunk arrives while a file is sent. The first chunk of a request holds its whole head, which
is shorter than the ring buffer, and no chunk goes on behind the end of a request. -/
def Regular (s : Stream) : Event → Prop
  | .recv buf _ => s.sending = false ∧
      ∀ m ∈ s.rest.head?, s.done + buf.length ≤ m.wire.length ∧
        (s.done = 0 → m.Readable ∧ m.head.length < 1024 ∧ m.head.length ≤ buf.length)
  | .sent => True

instance decidableRegular (s : Stream) : (e : Event) → Decidable (Regular s e)
  | .recv _ _ => inferInstanceAs (Decidable (_ ∧ _))
  | .sent => inferInstanceAs (Decidable True)

end Libobject.Http
