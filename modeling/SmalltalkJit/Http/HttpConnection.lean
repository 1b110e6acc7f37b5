import Mathlib.Data.List.Basic
import SmalltalkJit.Lib.ByteStream

/-! # Reading requests from a connection

A connection keeps the bytes that it has read and not yet consumed, and reads more
when a line or a body is not complete. What it reads of a request is a function of the
bytes that are left, consumed ones aside, and not of the reads in which they arrive.
The reader of requests is therefore written once, for whatever delivers lines and
bytes, and compared for the connection and for the plain stream of bytes.
-/
namespace SmalltalkJit.Http
open ByteStream

/-- What a reader comes to: an answer, a wait for data that have not arrived, or an error. `running` is
for a bound on the turns of a loop that is too small. -/
inductive Progress (S α : Type)
  | done (a : α) (s : S)
  | parked
  | error
  | running

/-- A number as `contentLength` answers it: whether it is more than a count of bytes, and its value if it
is an integer that is not negative. -/
structure Number where
  exceeds : ℕ → Bool
  count : Option ℕ
  anti : ∀ {a b}, a ≤ b → exceeds b = true → exceeds a = true
  exact : ∀ {k}, count = some k → ∀ a, exceeds a = true ↔ a < k

structure Reader (S : Type) where
  /-- a line without its end, or nil at the end of the data -/
  readLine : S → Progress S (Option (List Byte))
  readBytes : Number → S → Progress S (List Byte)

def indexOfByte (bytes : List Byte) (byte : Byte) (start : ℕ) : ℕ :=
  match (bytes.drop (start-1)).findIdx? (· = byte) with
  | some k => start + k
  | none => 0

def copyFrom (bytes : List Byte) (start stop : ℕ) : List Byte := (bytes.drop (start-1)).take (stop+1 - start)

section Requests
variable {S α β T : Type}

def Progress.bind (p : Progress S α) (f : α → S → Progress S β) : Progress S β :=
  match p with
  | .done a s => f a s
  | .parked => .parked
  | .error => .error
  | .running => .running

/-- The method is in upper case, the target has been parsed; the header lines are kept as they are. -/
structure HttpRequest (T : Type) where
  method : List Byte
  target : T
  version : List Byte
  rawHeaders : List (List Byte)
  body : List Byte
  deriving DecidableEq

def asUppercase (bytes : List Byte) : List Byte := bytes.map fun c => if 97 ≤ c ∧ c ≤ 122 then c-32 else c

def http10 : List Byte := [72,84,84,80,47,49,46,48]

def splitRequestLine (line : List Byte) : Option (List Byte × List Byte × List Byte) :=
  let sp1 := indexOfByte line 32 1
  if sp1 = 0 then none
  else
    let sp2 := indexOfByte line 32 (sp1+1)
    if sp2 = 0 then some (copyFrom line 1 (sp1-1),copyFrom line (sp1+1) line.length,http10)
    else some (copyFrom line 1 (sp1-1),copyFrom line (sp1+1) (sp2-1),copyFrom line (sp2+1) line.length)

/-- `parseTarget:` and `contentLength` look at nothing but the target and the header lines, and can
signal an error. -/
structure Parsing (T : Type) where
  parseTarget : List Byte → Option T
  contentLength : List (List Byte) → Option Number

variable (parsing : Parsing T) (r : Reader S)

def readHeadersInto : ℕ → List (List Byte) → S → Progress S (List (List Byte))
  | 0, _, _ => .running
  | fuel+1, headers, s =>
    (r.readLine s).bind fun line s =>
      match line with
      | none | some [] => .done headers s
      | some line => readHeadersInto fuel (headers ++ [line]) s

/-- The body is empty unless the length is more than 0. -/
def readBodyInto (headers : List (List Byte)) (s : S) : Progress S (List Byte) :=
  match parsing.contentLength headers with
  | none => .error
  | some length => if length.exceeds 0 then r.readBytes length s else .done [] s

def readRequest : ℕ → S → Progress S (Option (HttpRequest T))
  | 0, _ => .running
  | fuel+1, s =>
    (r.readLine s).bind fun line s =>
      match line with
      | none => .done none s
      | some [] => readRequest fuel s
      | some line =>
        match splitRequestLine line with
        | none => .done none s
        | some (method,target,version) =>
          match parsing.parseTarget target with
          | none => .error
          | some target =>
            (readHeadersInto r fuel [] s).bind fun headers s =>
              (readBodyInto parsing r headers s).bind fun body s =>
                .done (some ⟨asUppercase method,target,version,headers,body⟩) s

inductive Outcome
  | closed
  | parked
  | error
  | running
  deriving DecidableEq

def readRequests : ℕ → S → List (HttpRequest T) × Outcome
  | 0, _ => ([],.running)
  | fuel+1, s =>
    match readRequest parsing r (fuel+1) s with
    | .done (some request) s =>
      let rest := readRequests fuel s
      (request :: rest.1,rest.2)
    | .done none _ => ([],.closed)
    | .parked => ([],.parked)
    | .error => ([],.error)
    | .running => ([],.running)

end Requests

/-- The bytes that have been read, the 1-based position of the next one, and the reads that follow. -/
structure HttpConnection where
  pending : List Byte
  pos : ℕ
  reads : List (List Byte)
  deriving DecidableEq

namespace HttpConnection

/-- `on:`, with what the reads from the socket give, one after the other. -/
def on (reads : List (List Byte)) : HttpConnection := ⟨[],1,reads⟩

variable (c : HttpConnection)

def rest : List Byte := c.pending.drop (c.pos-1) ++ c.reads.flatten

def compact : HttpConnection :=
  if 1 < c.pos then { c with pending := copyFrom c.pending c.pos c.pending.length, pos := 1 } else c

/-- The number of bytes read, 0 when the peer has closed; none while nothing arrives. -/
def readMore (closed : Bool) : Option (ℕ × HttpConnection) :=
  match c.compact.reads with
  | [] => if closed then some (0,c.compact) else none
  | chunk :: reads => some (chunk.length,{ c.compact with pending := c.compact.pending ++ chunk, reads := reads })

def readLineLoop (closed : Bool) : ℕ → HttpConnection → Progress HttpConnection (Option (List Byte))
  | 0, _ => .running
  | fuel+1, c =>
    let idx := indexOfByte c.pending 10 c.pos
    if 0 < idx then
      let stop := idx-1
      let stop := if c.pos ≤ stop ∧ c.pending[stop-1]? = some 13 then stop-1 else stop
      .done (some (copyFrom c.pending c.pos stop)) { c with pos := idx+1 }
    else
      match c.readMore closed with
      | none => .parked
      | some (0,c) => .done none c
      | some (_,c) => readLineLoop closed fuel c

def readBytesLoop (closed : Bool) (n : Number) : ℕ → HttpConnection → Progress HttpConnection (List Byte)
  | 0, _ => .running
  | fuel+1, c =>
    if n.exceeds (c.pending.length+1 - c.pos) then
      match c.readMore closed with
      | none => .parked
      | some (0,c) => .done (copyFrom c.pending c.pos c.pending.length) ⟨[],1,c.reads⟩
      | some (_,c) => readBytesLoop closed n fuel c
    else
      match n.count with
      | some k => .done (copyFrom c.pending c.pos (c.pos + k-1)) { c with pos := c.pos + k }
      | none => .error

/-- Each turn of a loop takes one of the reads. -/
def reader (closed : Bool) : Reader HttpConnection where
  readLine c := c.readLineLoop closed (c.reads.length+1)
  readBytes n c := c.readBytesLoop closed n (c.reads.length+1)

end HttpConnection

def lineOf (bytes : List Byte) : Option (List Byte × List Byte) :=
  (bytes.findIdx? (· = 10)).map fun k =>
    (if 0 < k ∧ bytes[k-1]? = some 13 then bytes.take (k-1) else bytes.take k,bytes.drop (k+1))

def streamReader (closed : Bool) : Reader (List Byte) where
  readLine bytes :=
    match lineOf bytes with
    | some (line,rest) => .done (some line) rest
    | none => if closed then .done none bytes else .parked
  readBytes n bytes :=
    if n.exceeds bytes.length then if closed then .done bytes [] else .parked
    else
      match n.count with
      | some k => .done (bytes.take k) (bytes.drop k)
      | none => .error

end SmalltalkJit.Http
