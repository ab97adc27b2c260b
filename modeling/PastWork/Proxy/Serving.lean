import PastWork.Library.Steps
import PastWork.Proxy.Cache

/-!
# Threads with atomic sections

Any number of `doit` threads, where a call of `reader` and a call of `writer` are
one step each, and everything else can happen in between.
-/

namespace PastWork
namespace Proxy

open Steps

/-- Where a thread is in `doit`. -/
inductive Phase where
  | idle
  /-- `reader` has found the object; `writer(uri, object_buf, cache_i)` comes
  next -/
  | hit (uri : CStr) (cache_i : Fin NUM_CACHE_LINE)
  /-- the object is fetched; `writer(uri, object_buf, -1)` comes next -/
  | miss (uri : CStr)
deriving DecidableEq, Repr

universe u

/-- The cache and the threads. -/
structure Serving (T : Type u) where
  cache : Cache
  phase : T → Phase

/-- The steps of a thread. -/
inductive Act where
  /-- a request is accepted and `reader` is called -/
  | lookup (uri : CStr)
  /-- `writer` is called -/
  | store (object_buf : Buffer MAX_OBJECT_SIZE)
  /-- the object is too large for the cache -/
  | skip

namespace Serving

variable {T : Type u} [DecidableEq T]

/-- The state after `initialize_cache`, before any request. -/
def start (memory : Fin NUM_CACHE_LINE → CacheLine) : Serving T where
  cache := initializeCache memory
  phase := fun _ => .idle

/-- What `reader` returns to `doit`. -/
def outcome (uri : CStr) : Option (Fin NUM_CACHE_LINE) → Phase
  | some cache_i => .hit uri cache_i
  | none => .miss uri

/-- The call of `writer` by a thread, which then ends. -/
def write
    (s : Serving T) (t : T) (uri : CStr)
    (object_buf : Buffer MAX_OBJECT_SIZE)
    (cache_i : Option (Fin NUM_CACHE_LINE)) :
    Option (Serving T) :=
  match s.cache.writer uri object_buf cache_i with
  | .ok cache =>
      some { cache := cache, phase := Function.update s.phase t .idle }
  | .error _ => none

/-- One step of the thread `t`. -/
def step (s : Serving T) : T × Act → Option (Serving T)
  | (t, .lookup uri) =>
      match s.phase t with
      | .idle =>
          some
            { s with
              phase := Function.update s.phase t
                (outcome uri (s.cache.reader uri)) }
      | _ => none
  | (t, .store object_buf) =>
      match s.phase t with
      | .idle => none
      | .hit uri cache_i => s.write t uri object_buf (some cache_i)
      | .miss uri => s.write t uri object_buf none
  | (t, .skip) =>
      match s.phase t with
      | .miss _ =>
          some { s with phase := Function.update s.phase t .idle }
      | _ => none

end Serving

end Proxy
end PastWork
