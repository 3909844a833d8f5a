import Libobject.Core.RbTreeMap
import Libobject.Http.Text

/-!
# HTTP requests

A request is read out of a ring buffer: the start line, the headers line by line, and then
everything that is left of the buffer as the body. Each stage returns -1 when a line is not complete
and when it is malformed. A stage is `none` where the C program is undefined.
-/

namespace Libobject.Http

open Scan

/-- The stages of `enum http_status_e` that are used. -/
inductive Status
  | STATUS_INIT
  | STATUS_READ_START_LINE
  | STATUS_READ_HEADERS
  | STATUS_READ_BODY
  deriving DecidableEq

structure Request where
  method : Text
  uri : Text
  content_len : ℤ
  forms : List (Text × Text)
  headers : RbTreeMap strcmp Text
  buffer : RingBuffer
  body : IoBuffer
  status : Status

namespace Request

/-- `__construct`, with the status that the server sets. -/
def new : Request where
  method := []
  uri := []
  content_len := 0
  forms := []
  headers := RbTreeMap.empty
  buffer := RingBuffer.new (List.replicate 1024 0)
  body := IoBuffer.new
  status := .STATUS_INIT

end Request

/-- `Ring_Buffer.read_to_string` on a new string, as the C string that it then holds. -/
def read_to_string (buffer : RingBuffer) (len : ℕ) : Option (RingBuffer × Text) :=
  (buffer.call (.readToString Str.fresh len)).map fun r ↦ (r.1, cString r.2.bytes)

def pairs : List Text → List (Text × Text)
  | key :: value :: rest => (key, value) :: pairs rest
  | _ => []

/-- What `__read_form` makes of a uri: what it returns, the uri that is left and the forms. -/
structure Form where
  ret : ℤ
  uri : Text
  forms : List (Text × Text)
  deriving DecidableEq

def read_form (uri : Text) : Form :=
  match split (fun c ↦ c = 63) 1 uri with
  | [path, query] =>
    let pieces := split (fun c ↦ c = 61 || c = 38) (-1) query
    if pieces.length = 1 then ⟨0, path, []⟩
    else if pieces.length % 2 = 1 then ⟨-1, path, []⟩
    else ⟨1, path, pairs pieces⟩
  | _ => ⟨0, uri, []⟩

namespace Request

variable (rb : Rebalance (Text × Text))

/-- What is read is the whole ring buffer, whether or not it belongs to the body. -/
def read_body (request : Request) : Option (Request × ℤ) := do
  let request := { request with status := .STATUS_READ_BODY }
  let (buffer, body) ← request.buffer.read_to_buffer request.body request.buffer.getLen
  let request := { request with buffer := buffer, body := body }
  return (request, if (body.get_len : ℤ) ≠ request.content_len then 0 else 1)

/-- A header line that was read and that is not empty; `none` if it has no two parts. There is
memory for a body of the announced length. -/
def read_header (request : Request) (str : Text) : Option (Option Request) :=
  match split (fun c ↦ c = 58) 1 (replace_crlf str) with
  | [key, value] =>
    let key := str_to_lower (trim key)
    let value := trim value
    let request := { request with headers := request.headers.add rb key value }
    if key = ascii "content-length" then
      (request.body.set_capacity (atoi value).toNat (some [])).map fun r ↦
        some { request with content_len := atoi value, body := r.1 }
    else some (some request)
  | _ => some none

/-- The loop of `__read_headers`; every turn takes a line off the ring buffer. -/
def readHeadersFrom : ℕ → Request → Option (Request × ℤ)
  | 0, _ => none
  | fuel + 1, request =>
    match request.buffer.get_needle_offset CRLF with
    | none => some (request, -1)
    | some len => do
      let (buffer, str) ← read_to_string request.buffer (len + 2)
      let request := { request with buffer := buffer }
      if str = CRLF then request.read_body
      else
        match ← request.read_header rb str with
        | none => return (request, -1)
        | some request => readHeadersFrom fuel request

def read_headers (request : Request) : Option (Request × ℤ) :=
  readHeadersFrom rb (request.buffer.getLen + 1) { request with status := .STATUS_READ_HEADERS }

def read_start_line (request : Request) : Option (Request × ℤ) :=
  let request := { request with status := .STATUS_READ_START_LINE }
  match request.buffer.get_needle_offset CRLF with
  | none => some (request, -1)
  | some len => do
    let (buffer, str) ← read_to_string request.buffer (len + 2)
    let request := { request with buffer := buffer }
    match split (fun c ↦ c = 32) 2 (replace_crlf str) with
    | [method, url, _] =>
      let form := read_form (trim url)
      let request := { request with method := trim method, uri := form.uri, forms := form.forms }
      if form.ret < 0 then return (request, form.ret) else request.read_headers rb
    | _ => return (request, -1)

def read (request : Request) : Option (Request × ℤ) :=
  match request.status with
  | .STATUS_INIT | .STATUS_READ_START_LINE => request.read_start_line rb
  | .STATUS_READ_HEADERS => request.read_headers rb
  | .STATUS_READ_BODY => request.read_body

end Request

end Libobject.Http
