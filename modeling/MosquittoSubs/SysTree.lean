import MosquittoSubs.Publish

set_option autoImplicit false

/-!
# The `$SYS/broker/subscribed_topics` update

`sub__build_full_topic` and `sub__update_subscribed_topics`, run in the `WITH_SYS_TREE`
build whenever a normal leaf is added or removed. The buffer is modelled byte by byte,
with `snprintf` and `size_t` subtraction as C has them, since the arithmetic of `len`
and `pos` decides what the buffer holds.
-/

namespace MosquittoSubs.SysTree
open Model Publish

/-- `struct sub__topic_buffer`. -/
structure TopicBuffer where
  buffer : List Char
  len : Nat
  pos : Nat
  deriving DecidableEq, Repr

/-- `size_t` subtraction, which wraps modulo `2 ^ 64`. -/
def sizeSub (a b : Nat) : Nat := (((a : Int) - b) % 2 ^ 64).toNat

/-- The characters `cs` written into `buf` from offset `off`. -/
def writeAt : List Char → Nat → List Char → List Char
  | buf, _, [] => buf
  | buf, off, c :: cs => writeAt (buf.set off c) (off + 1) cs

/-- `snprintf(buf + off, size, ...)` of the formatted text `out`: at most `size - 1`
characters and a NUL when `size > 0`; its value is the length of `out`. -/
def snprintf (buf : List Char) (off size : Nat) (out : List Char) : List Char × Nat :=
  (if size = 0 then buf else writeAt buf off (out.take (size - 1) ++ ['\x00']), out.length)

/-- The C string a buffer holds: its characters up to the first NUL. -/
def cString (buf : List Char) : String := String.mk (buf.takeWhile (· ≠ '\x00'))

/-- `branch->parent && branch->parent->topic_len > 0`, for the parent's address. -/
def climbs : Addr → Bool
  | u :: _ => 0 < u.length
  | [] => false

/-- `sub__build_full_topic`. The two `malloc`s of the top of the chain are allocation
requests that may fail; the buffer's uninitialised bytes are taken to be NUL. -/
def subBuildFullTopic (env : Env) : Addr → Nat → Broker → Option TopicBuffer × Broker
  | [], _, s => (none, s)
  | t :: p, len, s =>
    let myLength := t.length + 1
    if climbs p then
      match subBuildFullTopic env p (len + myLength) s with
      | (some tb, s) =>
        let out := if len = 0 then t.toList else t.toList ++ ['/']
        let w := snprintf tb.buffer tb.pos (sizeSub tb.len tb.pos) out
        (some { tb with buffer := w.1, pos := tb.pos + myLength }, s)
      | (none, s) => (none, s)
    else if env.allocOk s.allocs then
      if env.allocOk (s.allocs + 1) then
        let total := len + myLength
        let w := snprintf (List.replicate total '\x00') 0 total (t.toList ++ ['/'])
        (some ⟨w.1, total, w.2⟩, s.bump.bump)
      else (none, s.bump.bump)
    else (none, s.bump)

/-- Modelled from the spec: `db__messages_easy_queue` (database.c, not under src/)
publishes its message through `sub__messages_queue`, with the empty source id of a
message the broker originates; `sub__topic_tokenise` splits a `$` topic on `/` into its
levels. -/
def dbMessagesEasyQueue (env : Env) (topic payload : String) (qos : UInt8) (retain : Bool)
    (s : Broker) : Int × Broker :=
  subMessagesQueue env (some "") topic (topic.split (· == '/')) qos retain ⟨payload, qos, retain⟩ s

def subUpdateSubscribedTopics (env : Env) (a : Addr) (s : Broker) : Int × Broker :=
  let count := (s.subs (.normal a)).length
  match subBuildFullTopic env a 0 s with
  | (none, s) => (MosqErr.nomem, s)
  | (some tb, s) =>
    let pubTopic := "$SYS/broker/subscribed_topics" ++ "/" ++ cString tb.buffer
    (MosqErr.success, (dbMessagesEasyQueue env pubTopic ((toString count).take 9) 0 true s).2)

end MosquittoSubs.SysTree
