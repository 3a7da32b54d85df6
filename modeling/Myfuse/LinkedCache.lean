import Myfuse.BufCache
import Myfuse.Library.Rings

/-! `buf_cache.c` with the links of its buffers: the circular lists themselves, the
loops over them, and what the callers of the cache hold. -/

namespace Myfuse
open Library

namespace BcacheBuf

/-- `brelse` of a buffer, less its lock; `now` is what `current_timestamp` returns. -/
def release (now : BitVec 64) (buf : BcacheBuf) : BcacheBuf :=
  { buf with refcnt := buf.refcnt - 1, timestamp := if buf.refcnt - 1 = 0 then now else buf.timestamp }

def pin (buf : BcacheBuf) : BcacheBuf := { buf with refcnt := buf.refcnt + 1 }

def unpin (buf : BcacheBuf) : BcacheBuf := { buf with refcnt := buf.refcnt - 1 }

end BcacheBuf

/-- What a `struct bcache_buf*` points to. -/
inductive CacheNode where
  | head (hashid : Nat)
  | buf (b : Nat)
  deriving DecidableEq

structure LinkedBcache where
  buf : Nat → BcacheBuf
  links : Links CacheNode

namespace LinkedBcache

/-- `bcache_init`, on a table whose pointers are `raw`. -/
def init (raw : Links CacheNode) : LinkedBcache :=
  let heads := (List.range BCACHE_HASH_SIZE).foldl (fun links i => (links.setPrev (.head i) (.head i)).setNext (.head i) (.head i)) raw
  { buf := Bcache.init.buf
    links := (List.range NCACHE_BUF).foldl (fun links b => links.insertFront (.head 0) (.buf b)) heads }

def setBuf (c : LinkedBcache) (b : Nat) (change : BcacheBuf → BcacheBuf) : LinkedBcache :=
  { c with buf := Function.update c.buf b (change (c.buf b)) }

/-- A test on the buffer a pointer leads to; the loops stop before they look into a head. -/
def test (c : LinkedBcache) (hit : BcacheBuf → Bool) : CacheNode → Bool
  | .head _ => false
  | .buf b => hit (c.buf b)

def index : CacheNode → Option Nat
  | .head _ => none
  | .buf b => some b

/-- More turns than a list has nodes. -/
abbrev turns : Nat := NCACHE_BUF + 1

/-- `for (b = head.next; b != &head; b = b->next)` with an exit; `none` when the loop does not end. -/
def searchForward (c : LinkedBcache) (hashid : Nat) (hit : BcacheBuf → Bool) : Option (Option Nat) :=
  (Links.search c.links.next (.head hashid) (c.test hit) turns (c.links.next (.head hashid))).map (·.bind index)

/-- The same from `head.prev` backwards. -/
def searchBackward (c : LinkedBcache) (hashid : Nat) (hit : BcacheBuf → Bool) : Option (Option Nat) :=
  (Links.search c.links.prev (.head hashid) (c.test hit) turns (c.links.prev (.head hashid))).map (·.bind index)

/-- The body of the scan of another list. -/
def older (c : LinkedBcache) (least : Option Nat × BitVec 64) : CacheNode → Option Nat × BitVec 64
  | .head _ => least
  | .buf b =>
    if (c.buf b).refcnt = 0 then
      if (c.buf b).timestamp ≤ least.2 then (some b, (c.buf b).timestamp) else least
    else least

def leastRecent (c : LinkedBcache) (hidx : Nat) : Option (Option Nat) :=
  (Links.scan c.links.prev (.head hidx) c.older turns (c.links.prev (.head hidx)) (none, BitVec.allOnes 64)).map (·.1)

/-- The loop over the lists: the first other list with a free buffer, and its least recent one. -/
def victim (c : LinkedBcache) (hashid : Nat) : List Nat → Option (Option (Nat × Nat))
  | [] => some none
  | hidx :: rest =>
    if hidx = hashid then c.victim hashid rest
    else
      match c.leastRecent hidx with
      | none => none
      | some (some b) => some (some (hidx, b))
      | some none => c.victim hashid rest

def claim (c : LinkedBcache) (b blockno : Nat) : LinkedBcache :=
  c.setBuf b fun buf => { buf with blockno, refcnt := 1, valid := false }

/-- Unlink the buffer, and link it behind the head of another list. -/
def relink (c : LinkedBcache) (b hashid : Nat) : LinkedBcache :=
  { c with links := (c.links.unlink (.buf b)).insertFront (.head hashid) (.buf b) }

/-- `bget` before it takes the buffer's lock; `none` when a loop never ends. Without
other threads `while (1)` finds the same in every turn. -/
def bget (c : LinkedBcache) (blockno : Nat) : Option (Nat × LinkedBcache) :=
  match c.searchForward (bcacheHash blockno) fun buf => buf.blockno == blockno with
  | none => none
  | some (some b) => some (b, c.setBuf b BcacheBuf.pin)
  | some none =>
    match c.searchBackward (bcacheHash blockno) fun buf => buf.refcnt == 0 && decide (buf.timestamp ≤ BitVec.allOnes 64) with
    | none => none
    | some (some b) => some (b, c.claim b blockno)
    | some none =>
      match c.victim (bcacheHash blockno) (List.range BCACHE_HASH_SIZE) with
      | some (some (_, b)) => some (b, (c.claim b blockno).relink b (bcacheHash blockno))
      | _ => none

end LinkedBcache

/-- The cache, with the gets and pins of each buffer that are still outstanding. -/
structure CacheUse where
  cache : LinkedBcache
  gets : Nat → Nat
  pins : Nat → Nat

inductive CacheEvent where
  | bget (blockno : Nat)
  | brelse (b : Nat) (now : BitVec 64)
  | bpin (b : Nat)
  | bunpin (b : Nat)

namespace CacheUse

def start (raw : Links CacheNode) : CacheUse := { cache := LinkedBcache.init raw, gets := fun _ => 0, pins := fun _ => 0 }

/-- A release or unpin needs a get or pin to match; a `bget` that searches for ever is no step. -/
def step (use : CacheUse) : CacheEvent → Option CacheUse
  | .bget blockno => (use.cache.bget blockno).map fun (b, cache) => { use with cache, gets := assign use.gets b (use.gets b + 1) }
  | .brelse b now =>
    if 0 < use.gets b then
      some { use with cache := use.cache.setBuf b (BcacheBuf.release now), gets := assign use.gets b (use.gets b - 1) }
    else none
  | .bpin b =>
    if b < NCACHE_BUF then
      some { use with cache := use.cache.setBuf b BcacheBuf.pin, pins := assign use.pins b (use.pins b + 1) }
    else none
  | .bunpin b =>
    if 0 < use.pins b then
      some { use with cache := use.cache.setBuf b BcacheBuf.unpin, pins := assign use.pins b (use.pins b - 1) }
    else none

def run (use : CacheUse) (events : List CacheEvent) : Option CacheUse := events.foldlM step use

end CacheUse
end Myfuse
