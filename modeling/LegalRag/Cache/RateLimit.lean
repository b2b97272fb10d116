import LegalRag.Calls.Service
import LegalRag.Redis.SortedSet
import Mathlib.Data.Rat.Defs
import Mathlib.Algebra.Order.Ring.Rat

/-!
# The sliding-window rate limiter

`allowRequest` as `src/cache/rate_limit.py` computes it: one MULTI/EXEC pipeline drops the entries older
than the window, counts what is left, adds an entry for this call and renews the key's lifetime; only then
is the count looked at, and a call over the limit reads the oldest entry and removes its own by score.

The calls of one user and bucket form a service over the sorted set of that key.  Times are rationals; the
store keeps the time of the last pipeline, and a key vanishes when its lifetime is over
(`RateEnv.expire`).
-/

namespace LegalRag

open Calls Redis

/-- `rl:{bucket}:{user_id}`. -/
def rlKey (bucket userId : String) : String := "rl:" ++ bucket ++ ":" ++ userId

/-- The member `{now}-{uuid4().hex[:8]}` of a call. -/
structure RateMember where
  now : ℚ
  hex : Nat
  deriving DecidableEq, Repr

/-- One command of a pipeline. -/
inductive RateCmd where
  | zremrangebyscore (key : String) (lo hi : ℚ)
  | zcard (key : String)
  | zadd (key : String) (member : RateMember) (score : ℚ)
  | expire (key : String) (seconds : ℚ)

/-- The round trips of `allow_request` to Redis. -/
inductive RateOp where
  | pipeline (cmds : List RateCmd)
  | zrange (key : String)
  | zremrangebyscore (key : String) (lo hi : ℚ)

/-- What each round trip returns: the replies of a pipeline, the lowest entry with its score, a count. -/
@[reducible] def RateOp.Resp : RateOp → Type
  | .pipeline _ => List Nat
  | .zrange _ => List (Entry RateMember ℚ)
  | .zremrangebyscore .. => Nat

/-- The interface of the limiter. -/
abbrev RateCalls : Iface := ⟨RateOp, RateOp.Resp⟩

/-- `RateLimitExceeded`, or a failure of the Redis client. -/
inductive RateErr where
  | rateLimitExceeded (retryAfterS : ℚ)
  | redis (msg : String)

/-- A round trip to Redis. -/
abbrev redis (o : RateCalls.Op) : Prog RateCalls RateErr (RateCalls.Resp o) := Prog.perform o

/-- `window_s - (now - oldest[0][1]) if oldest else float(window_s)`. -/
def retryAfter (windowS : Nat) (now : ℚ) : List (Entry RateMember ℚ) → ℚ
  | e :: _ => windowS - (now - e.score)
  | [] => windowS

/-- `allow_request`: `(allowed, remaining)`, or `RateLimitExceeded`. -/
def allowRequest (userId bucket : String) (limit windowS : Nat) (now : ℚ) (hex : Nat) :
    Prog RateCalls RateErr (Bool × Nat) := do
  let key := rlKey bucket userId
  let cutoff := now - windowS
  let replies ← redis (.pipeline
    [.zremrangebyscore key 0 cutoff, .zcard key, .zadd key ⟨now, hex⟩ now, .expire key (windowS + 5)])
  -- `_, count, _, _ = await pipe.execute()`
  let count := replies.getD 1 0
  if limit ≤ count then
    let oldest ← redis (.zrange key)
    let _ ← redis (.zremrangebyscore key now now)
    throw (.rateLimitExceeded (max (1 / 10) (retryAfter windowS now oldest)))
  else
    return (true, limit - count - 1)

/-! ### Redis -/

/-- A sorted-set key with the time at which it expires. -/
structure RateKey where
  zset : ZSet RateMember ℚ
  deadline : Option ℚ

/-- The keys of the limiter, the time of the last pipeline and the latest time at which a key expired. -/
structure RateStore where
  keys : String → RateKey
  clock : ℚ
  expiry : ℚ

/-- No call yet, at the epoch. -/
def RateStore.init : RateStore := ⟨fun _ => ⟨ZSet.empty, none⟩, 0, 0⟩

/-- The time of the last event. -/
def RateStore.time (w : RateStore) : ℚ := max w.clock w.expiry

/-- Change the sorted set of one key. -/
def RateStore.update (key : String) (f : RateKey → RateKey) (w : RateStore) : RateStore :=
  { w with keys := Function.update w.keys key (f (w.keys key)) }

/-- One command of a pipeline that runs at the time of the store's clock. -/
def RateCmd.exec : RateCmd → RateStore → Nat × RateStore
  | .zremrangebyscore key lo hi, w =>
    ((w.keys key).zset.zcard - ((w.keys key).zset.zremrangebyscore lo hi).zcard,
      w.update key fun k => { k with zset := k.zset.zremrangebyscore lo hi })
  | .zcard key, w => ((w.keys key).zset.zcard, w)
  | .zadd key m s, w =>
    (if (w.keys key).zset.entries.any (fun e => e.member = m) then 0 else 1,
      w.update key fun k => { k with zset := k.zset.zadd m s })
  | .expire key t, w => (1, w.update key fun k => { k with deadline := some (w.clock + t) })

/-- The commands of a pipeline, in order. -/
def execAll : List RateCmd → RateStore → List Nat × RateStore
  | [], w => ([], w)
  | c :: cs, w => ((c.exec w).1 :: (execAll cs (c.exec w).2).1, (execAll cs (c.exec w).2).2)

/-- A call of `allow_request`: the clock it reads and the random part of its member. -/
structure RateCall where
  now : ℚ
  hex : Nat
  deriving DecidableEq, Repr

/-- The member a call adds. -/
def RateCall.member (c : RateCall) : RateMember := ⟨c.now, c.hex⟩

/-- Redis serving one round trip of the call `c`; a pipeline runs at the time its call has read. -/
def rateHandler (c : RateCall) : Handler RateCalls RateErr RateStore
  | .pipeline cmds, w =>
    (.ok (execAll cmds { w with clock := c.now }).1, (execAll cmds { w with clock := c.now }).2)
  | .zrange key, w => (.ok (w.keys key).zset.lowest, w)
  | .zremrangebyscore key lo hi, w =>
    (.ok ((RateCmd.zremrangebyscore key lo hi).exec w).1, ((RateCmd.zremrangebyscore key lo hi).exec w).2)

/-- A key whose lifetime is over vanishes. -/
inductive RateEnv where
  | expire (key : String)

def RateEnv.step : RateEnv → RateStore → Option RateStore
  | .expire key, w =>
    (w.keys key).deadline.map fun d =>
      { w.update key (fun _ => ⟨ZSet.empty, none⟩) with expiry := max w.expiry d }

/-- The concurrent calls of `allow_request` for one user and bucket. -/
def rateLimiter (userId bucket : String) (limit windowS : Nat) :
    Service RateCalls RateErr RateStore RateCall RateEnv (Bool × Nat) where
  program c := allowRequest userId bucket limit windowS c.now c.hex
  enter _ w := w
  handle _ := rateHandler
  env := RateEnv.step

end LegalRag
