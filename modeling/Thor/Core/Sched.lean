import Thor.Rpc.Interface
import Thor.Security.Authorize

/-!
# Serving a client (core/sched.c)

The body of the loop in `serve_clients` for one connected client. A turn reads
into `_buf` and appends `_buf` to `buf` until `_buf` shows the marker, trims
`buf`, and calls `rpc_call` with it. Every turn starts with two empty arrays.

The reads of the client are a list: bytes, a timeout (`-1`) or the end of the
connection (`0`). `readLoop` is the loop of one turn, `serve` the turns one
after the other.
-/

namespace Thor

open CLib

/-- What `ssl_tls.read` returns: bytes without a NUL, `-1`, or `0`. -/
inductive Read where
  | data (bytes : Str)
  | timeout
  | closed
  deriving DecidableEq

/-- The string in `_buf` after a read has written `chunk` at its start. -/
def recvInto (chunk old : Str) : Str := chunk ++ old.drop chunk.length

/-- How the loop of a turn ended, with the bytes its reads delivered. -/
inductive LoopEnd where
  /-- the marker was seen; `buf` is the text accumulated -/
  | frame (bytes buf : Str)
  | timeout (bytes : Str)
  | closed (bytes : Str)
  /-- `strcat` past the end of `buf` -/
  | overflow
  /-- no read has come yet -/
  | waiting
  deriving DecidableEq

/-- The `do`-`while` loop: the bytes read so far, `buf`, `_buf`, and the reads to come. -/
def readLoop (bytes buf old : Str) : List Read → LoopEnd × List Read
  | [] => (.waiting, [])
  | .timeout :: rs => (.timeout bytes, rs)
  | .closed :: rs => (.closed bytes, rs)
  | .data chunk :: rs =>
    -- all of `_buf` is appended, also what an earlier and longer read has left there
    match strcat (mb 15) buf (recvInto chunk old) with
    | none => (.overflow, rs)
    | some buf' =>
      if strstr (recvInto chunk old) marker then (.frame (bytes ++ chunk) buf', rs)
      else readLoop (bytes ++ chunk) buf' (recvInto chunk old) rs

/-- What a turn did. -/
inductive Turn where
  /-- `rpc_call(node, cmd)`, after reads that delivered `bytes` -/
  | call (bytes cmd : Str)
  /-- nothing; the bytes received in the turn are gone -/
  | timeout (dropped : Str)
  | closed (dropped : Str)
  | overflow
  deriving DecidableEq

/-- `n` turns, one after the other. A turn that still waits for a read has not
ended, and a client whose connection is closed gets no further turn. -/
def turns : Nat → List Read → List Turn
  | 0, _ => []
  | n + 1, rs =>
    match readLoop [] [] [] rs with
    | (.frame bytes buf, rest) => .call bytes (removeEscape buf) :: turns n rest
    | (.timeout bytes, rest) => .timeout bytes :: turns n rest
    | (.closed bytes, _) => [.closed bytes]
    | (.overflow, _) => [.overflow]
    | (.waiting, _) => []

/-- All the turns a list of reads makes: each uses up at least one of them. -/
def serve (rs : List Read) : List Turn := turns rs.length rs

end Thor
