import SeaClaw.Core.Error
import SeaClaw.Lib.CBuffer
import SeaClaw.Lib.Machine
import SeaClaw.Lib.Pipe

/-!
# Running a command

A child writes to two pipes, and the runner reads them into buffers until it has seen the end of
both. The child, the runner and the answers of the system take turns in any order; what is not
possible in a state changes nothing. Pipes, process and buffers are there.
-/

namespace SeaClaw

open Lib

/-- Standard output and standard error. -/
inductive StdStream where
  | out | err
  deriving DecidableEq

/-- How a process ended, as `waitpid` tells it. -/
inductive WaitStatus where
  | exited (code : ℕ)
  | signaled (signal : ℕ)
  deriving DecidableEq

/-- The child: it runs, waits until a pipe takes the rest of what it writes, or has ended. -/
inductive ChildState where
  | running
  | blocked (pipe : StdStream) (rest : Bytes)
  | ended (status : WaitStatus)
  deriving DecidableEq

/-- `exit_code` and `success` of `sc_run_result_t`. -/
def runResult : WaitStatus → ℤ × Bool
  | .exited code => (code, code = 0)
  | .signaled _ => (-1, false)

/-- Where the runner is. -/
inductive RunnerPlace where
  /-- At the head of its loop. -/
  | loop
  /-- In `select` on some of the pipes. -/
  | select (fds : StdStream → Bool)
  /-- Behind it, with pipes that are ready, of which one is next. -/
  | reading (ready : StdStream → Bool) (next : StdStream)
  /-- Behind the loop. -/
  | closing
  /-- In the last `waitpid`. -/
  | waiting
  /-- Done; without a status that was stored, nothing is known of the result. -/
  | done (result : Option (ℤ × Bool))

/-- What was read from a pipe, and whether its end was seen. -/
structure Capture where
  buf : Bytes
  eof : Bool

/-- The two pipes, the child and the runner. -/
structure ProcessRun where
  pipes : StdStream → Pipe
  child : ChildState
  captures : StdStream → Capture
  /-- The child was waited for inside the loop. -/
  reaped : Bool
  place : RunnerPlace

/-- Both pipes are empty, and nothing is read yet. -/
def ProcessRun.start : ProcessRun := ⟨fun _ => .fresh, .running, fun _ => ⟨[], false⟩, false, .loop⟩

/-- `cap`, the size of each buffer. -/
def captureCap (maxOutputBytes : ℕ) : ℕ :=
  let cap := (maxOutputBytes + 1) % 2 ^ 64
  if cap > 65536 then 65536 else cap

/-- What happens next: the child writes, gets on with a write, closes a pipe or ends; the runner
goes on; `select`, `read` or `waitpid` answers. -/
inductive ProcessEvent where
  | write (p : StdStream) (bytes : Bytes)
  | resume (k : ℕ)
  | close (p : StdStream)
  | exit (status : WaitStatus)
  | enter
  | ready (fds : StdStream → Bool)
  | timeout
  | interrupted
  | failed
  | read (answer : Option ℕ)
  | closePipes
  | waitpid (interrupted : Bool)

namespace ProcessRun

/-- The pipes and buffers with those of one stream changed. -/
def setPipe (s : ProcessRun) (p : StdStream) (pipe : Pipe) : ProcessRun :=
  { s with pipes := Function.update s.pipes p pipe }

def setCapture (s : ProcessRun) (p : StdStream) (capture : Capture) : ProcessRun :=
  { s with captures := Function.update s.captures p capture }

/-- The child writes to a pipe. What does not fit it waits with; to a pipe that nobody reads it
writes nothing. -/
def write (capacity : ℕ) (s : ProcessRun) (p : StdStream) (bytes : Bytes) : ProcessRun :=
  if s.child = .running ∧ (s.pipes p).writeOpen = true ∧ (s.pipes p).readOpen = true then
    if (s.pipes p).contents.length + bytes.length ≤ capacity then
      s.setPipe p ((s.pipes p).fill bytes)
    else { s with child := .blocked p bytes }
  else s

/-- A write gets on by so many octets, or fails when nobody reads any more. -/
def resume (capacity : ℕ) (s : ProcessRun) (k : ℕ) : ProcessRun :=
  match s.child with
  | .blocked p rest =>
    if (s.pipes p).readOpen = false then { s with child := .running }
    else if (s.pipes p).contents.length + k ≤ capacity then
      { s.setPipe p ((s.pipes p).fill (rest.take k)) with
        child := if rest.length ≤ k then .running else .blocked p (rest.drop k) }
    else s
  | _ => s

/-- The child closes its end of a pipe. -/
def close (s : ProcessRun) (p : StdStream) : ProcessRun :=
  if s.child = .running then s.setPipe p { s.pipes p with writeOpen := false } else s

/-- The child ends, whatever it was doing. -/
def finish (s : ProcessRun) (status : WaitStatus) : ProcessRun :=
  match s.child with
  | .ended _ => s
  | _ =>
    { s with
      child := .ended status
      pipes := fun p => { s.pipes p with writeOpen := false } }

/-- The pipes that the runner selects on. -/
def watched (maxOutputBytes : ℕ) (s : ProcessRun) (p : StdStream) : Bool :=
  ¬ (s.captures p).eof ∧ (s.captures p).buf.length < maxOutputBytes

/-- The head of the loop. -/
def enter (maxOutputBytes : ℕ) (s : ProcessRun) : ProcessRun :=
  match s.place with
  | .loop =>
    if (s.captures .out).eof ∧ (s.captures .err).eof then { s with place := .closing }
    else { s with place := .select (s.watched maxOutputBytes) }
  | _ => s

/-- `select` finds some of the pipes ready. -/
def ready (s : ProcessRun) (fds : StdStream → Bool) : ProcessRun :=
  match s.place with
  | .select watched =>
    if (∀ p ∈ [StdStream.out, .err], fds p = true → watched p = true ∧ (s.pipes p).Readable) ∧
        (fds .out = true ∨ fds .err = true) then
      { s with place := .reading fds .out }
    else s
  | _ => s

/-- `select` finds none ready for a second: has the child ended? -/
def timeout (s : ProcessRun) : ProcessRun :=
  match s.place with
  | .select watched =>
    if ∀ p ∈ [StdStream.out, .err], watched p = true → ¬ (s.pipes p).Readable then
      match s.child with
      | .ended _ => { s with reaped := true, place := .closing }
      | _ => { s with place := .loop }
    else s
  | _ => s

/-- `select` is interrupted. -/
def interrupted (s : ProcessRun) : ProcessRun :=
  match s.place with
  | .select _ => { s with place := .loop }
  | _ => s

/-- `select` fails. -/
def failed (s : ProcessRun) : ProcessRun :=
  match s.place with
  | .select _ => { s with place := .closing }
  | _ => s

/-- Where the runner goes behind one of the pipes. -/
def behind (ready : StdStream → Bool) : StdStream → RunnerPlace
  | .out => .reading ready .err
  | .err => .loop

/-- The runner reads the next pipe if it is ready: `read` fails, or takes some octets, none at the
end or where the buffer has no room. -/
def read (maxOutputBytes : ℕ) (s : ProcessRun) (answer : Option ℕ) : ProcessRun :=
  match s.place with
  | .reading ready p =>
    let c := s.captures p
    let room := sizeSub (sizeSub (captureCap maxOutputBytes) c.buf.length) 1
    if ready p = false then { s with place := behind ready p }
    else
      match answer with
      | none => { s.setCapture p { c with eof := true } with place := behind ready p }
      | some 0 =>
        if room = 0 ∨ ((s.pipes p).contents = [] ∧ (s.pipes p).writeOpen = false) then
          { s.setCapture p { c with eof := true } with place := behind ready p }
        else s
      | some k =>
        if k ≤ room ∧ k ≤ (s.pipes p).contents.length then
          { (s.setCapture p { c with buf := c.buf ++ (s.pipes p).contents.take k }).setPipe p
              ((s.pipes p).drain k) with
            place := behind ready p }
        else s
  | _ => s

/-- The runner closes its ends of the pipes. -/
def closePipes (s : ProcessRun) : ProcessRun :=
  match s.place with
  | .closing =>
    { s with
      pipes := fun p => { s.pipes p with readOpen := false }
      place := .waiting }
  | _ => s

/-- The last `waitpid`. It fails for a child that was waited for before, and when it is interrupted
while it waits; `status` is stored otherwise. -/
def waitpid (s : ProcessRun) (interrupted : Bool) : ProcessRun :=
  match s.place with
  | .waiting =>
    if s.reaped then { s with place := .done none }
    else
      match s.child with
      | .ended status => { s with place := .done (some (runResult status)) }
      | _ => if interrupted then { s with place := .done none } else s
  | _ => s

end ProcessRun

/-- One step of `sc_process_run_sandboxed` behind the fork, of its child, or of the system. -/
def processStep (capacity maxOutputBytes : ℕ) (s : ProcessRun) : ProcessEvent → Option ProcessRun
  | .write p bytes => some (s.write capacity p bytes)
  | .resume k => some (s.resume capacity k)
  | .close p => some (s.close p)
  | .exit status => some (s.finish status)
  | .enter => some (s.enter maxOutputBytes)
  | .ready fds => some (s.ready fds)
  | .timeout => some s.timeout
  | .interrupted => some s.interrupted
  | .failed => some s.failed
  | .read answer => some (s.read maxOutputBytes answer)
  | .closePipes => some s.closePipes
  | .waitpid interrupted => some (s.waitpid interrupted)

end SeaClaw
