import Reconverse.Lib.Runs

/-!
# User-level threads

The calls of `threads.cpp` on one PE, on the fields that decide when a thread and its token are
freed. A thread that is awakened has its token enqueued, and the scheduler runs a token through
`CthResumeNormalThread`. A thread that has finished, or that was freed, goes into a pool of one
entry; the entry that was there before is freed.

Threads are numbered in the order of their creation, and the token of a thread has its number. Thus
memory that was freed is not used again, and what `free` does to its content is not seen. The
scheduling thread is not one of them: it runs tokens and handlers, and it does not suspend itself.
Which token is next is up to the queue, so a step may run any token in it.
-/

namespace Reconverse.Threads

open Function (update)

/-- The fields of a thread on which its end depends. -/
structure CthThreadBase where
  scheduled : Nat
  exiting : Bool
  deriving DecidableEq, Repr

/-- The threads of a PE. -/
structure Pe where
  base : Nat → CthThreadBase
  /-- The field `thread` of a token. -/
  thread : Nat → Option Nat
  created : Nat
  /-- The current thread; none is the scheduling thread. -/
  cthCurrent : Option Nat
  doomedThreadPool : Option Nat
  /-- The tokens in the queue of the scheduler. -/
  queue : List Nat
  /-- Ghost state: the threads that were passed to `CthThreadFree`. -/
  ended : List Nat
  /-- Ghost state: the tokens that were freed, each with the number of its copies that were in the
  queue then. -/
  tokenFrees : List (Nat × Nat)
  /-- Ghost state: the threads that were resumed, and whether they had ended before. -/
  resumes : List (Nat × Bool)

namespace Pe

variable (s : Pe)

/-- Before the first thread is created. -/
def initial : Pe where
  base _ := ⟨0, false⟩
  thread _ := none
  created := 0
  cthCurrent := none
  doomedThreadPool := none
  queue := []
  ended := []
  tokenFrees := []
  resumes := []

/-! ## Freeing -/

/-- `CthCreate`, with `CthThreadInit`. -/
def cthCreate : Pe :=
  { s with
    base := update s.base s.created ⟨0, false⟩
    thread := update s.thread s.created (some s.created)
    created := s.created + 1 }

/-- `free(token)`. -/
def freeToken (token : Nat) : Pe :=
  { s with tokenFrees := s.tokenFrees ++ [(token, s.queue.count token)] }

/-- `CthThreadBaseFree`. -/
def cthThreadBaseFree (t : Nat) : Pe :=
  if (s.base t).scheduled = 0 then s.freeToken t
  else { s with thread := update s.thread t none }

/-- `CthThreadFree`. -/
def cthThreadFree (t : Nat) : Pe :=
  let doomed := s.doomedThreadPool
  let s := { s with doomedThreadPool := some t, ended := t :: s.ended }
  match doomed with
  | none => s
  | some d => s.cthThreadBaseFree d

/-! ## Switching -/

/-- `CthBaseResume`. -/
def cthBaseResume (t : Option Nat) : Pe :=
  { s with
    cthCurrent := t
    resumes := s.resumes ++ t.toList.map fun t => (t, decide (t ∈ s.ended)) }

/-- `CthResume`. -/
def cthResume (t : Option Nat) : Pe :=
  if t ≠ s.cthCurrent then
    match s.cthCurrent with
    | none => s.cthBaseResume t
    | some tc =>
      if (s.base tc).exiting then (s.cthBaseResume t).cthThreadFree tc else s.cthBaseResume t
  else s

/-- `if (cur->scheduled > 0) cur->scheduled--`. -/
def dropScheduled (cur : Nat) : Pe :=
  if (s.base cur).scheduled > 0 then
    { s with
      base := update s.base cur { s.base cur with scheduled := (s.base cur).scheduled - 1 } }
  else s

/-- `CthSuspend` of the current thread `cur`; `CthSuspendNormalThread` chooses the scheduling
thread. -/
def cthSuspend (cur : Nat) : Pe := (s.dropScheduled cur).cthResume none

/-- `CthFree` of the current thread: it ends when it suspends. -/
def setExiting (t : Nat) : Pe :=
  { s with base := update s.base t { s.base t with exiting := true } }

/-- `CthThreadFinished`. -/
def cthThreadFinished (t : Nat) : Pe := (s.setExiting t).cthSuspend t

/-! ## Tokens -/

/-- `CthEnqueueNormalThread`. -/
def cthEnqueueNormalThread (token : Nat) : Pe := { s with queue := s.queue ++ [token] }

/-- `scheduled++`. -/
def addScheduled (t : Nat) : Pe :=
  { s with base := update s.base t { s.base t with scheduled := (s.base t).scheduled + 1 } }

/-- `CthAwaken`. -/
def cthAwaken (t : Nat) : Pe := (s.addScheduled t).cthEnqueueNormalThread t

/-- `CthAwakenPrio`. -/
def cthAwakenPrio (t : Nat) : Pe := (s.cthEnqueueNormalThread t).addScheduled t

/-- `CthYield`. -/
def cthYield (cur : Nat) : Pe := (s.cthAwaken cur).cthSuspend cur

/-- `CthResumeNormalThread`. -/
def cthResumeNormalThread (token : Nat) : Pe :=
  match s.thread token with
  | none => s.freeToken token
  | some t => s.cthResume (some t)

/-- `CthFree`. -/
def cthFree (t : Nat) : Pe :=
  if some t ≠ s.cthCurrent then s.cthThreadFree t else s.setExiting t

end Pe

/-! ## Runs -/

/-- What the current thread, or the scheduling thread, does next; `run k` runs the token at place
`k` of the queue. -/
inductive Event where
  | create
  | awaken (t : Nat)
  | awakenPrio (t : Nat)
  | run (k : Nat)
  | suspend
  | yield
  | finish
  | free (t : Nat)
  deriving DecidableEq, Repr

/-- A thread exists from its creation to its end. -/
def Pe.Exists (s : Pe) (t : Nat) : Prop := t < s.created ∧ t ∉ s.ended

instance (s : Pe) (t : Nat) : Decidable (s.Exists t) := inferInstanceAs (Decidable (_ ∧ _))

/-- The state after an event. Only threads that exist are awakened or freed, and only threads that
were created suspend, yield or finish. -/
def Pe.step (s : Pe) : Event → Option Pe
  | .create => some s.cthCreate
  | .awaken t => if s.Exists t then some (s.cthAwaken t) else none
  | .awakenPrio t => if s.Exists t then some (s.cthAwakenPrio t) else none
  | .run k => do
    let token ← s.queue[k]?
    some (cthResumeNormalThread { s with queue := s.queue.eraseIdx k } token)
  | .suspend => s.cthCurrent.map s.cthSuspend
  | .yield => s.cthCurrent.map s.cthYield
  | .finish => s.cthCurrent.map s.cthThreadFinished
  | .free t => if s.Exists t then some (s.cthFree t) else none

def Step (s : Pe) (e : Event) (s' : Pe) : Prop := s.step e = some s'

/-- Every token was freed at most once and with no copy in the queue, and no thread was resumed
after its end. -/
structure Pe.EndsOnce (s : Pe) : Prop where
  once : (s.tokenFrees.map Prod.fst).Nodup
  unqueued : ∀ f ∈ s.tokenFrees, f.2 = 0
  alive : ∀ r ∈ s.resumes, r.2 = false

/-- A token that the scheduler runs is not that of the thread in the pool and, if its thread was
freed, it is the last copy. -/
def Pe.TokenOk (s : Pe) : Event → Prop
  | .run k => ∀ token, s.queue[k]? = some token →
      (∀ t, s.thread token = some t → s.doomedThreadPool ≠ some t) ∧
      (s.thread token = none → token ∉ s.queue.eraseIdx k)
  | _ => True

end Reconverse.Threads
