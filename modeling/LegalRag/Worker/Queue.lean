import LegalRag.Api.World
import LegalRag.Calls.Service

/-!
# The API and the worker around one broker

The API process serves upload and chat requests, interleaved call by call; the worker of
`src/worker/main.py` polls its queue and finishes jobs, as steps of the environment.  The producer takes
the queue name from the pool it has made, the consumer from `WorkerSettings`.  `Delivers` is what the two
are there for.
-/

namespace LegalRag

open Calls Service

/-- What the worker's configuration says about its queue. -/
structure WorkerSettings where
  queueName : String
  maxJobs : Nat
  deriving DecidableEq, Repr

/-- `class WorkerSettings`. -/
def workerSettings : WorkerSettings := ⟨"default", 8⟩

/-- The worker picks a job up from its queue, or finishes one. -/
inductive WorkerStep where
  | poll (i : Nat)
  | finish (i : Nat)
  deriving DecidableEq, Repr

/-- The worker picks up the `i`-th job of the queue it polls, unless too many run. -/
def Broker.poll (s : WorkerSettings) (i : Nat) (b : Broker) : Option Broker :=
  if b.running.length < s.maxJobs then
    (b.queues s.queueName)[i]?.map fun j =>
      { queues := Function.update b.queues s.queueName ((b.queues s.queueName).eraseIdx i)
        running := j :: b.running
        picked := j :: b.picked }
  else none

/-- The `i`-th running job ends. -/
def Broker.finish (i : Nat) (b : Broker) : Option Broker :=
  if i < b.running.length then some { b with running := b.running.eraseIdx i } else none

/-- A step of the worker. -/
def WorkerStep.step (s : WorkerSettings) (e : WorkerStep) (w : ApiWorld) : Option ApiWorld :=
  (match e with
    | .poll i => w.broker.poll s i
    | .finish i => w.broker.finish i).map fun b => { w with broker := b }

/-- The requests that enqueue jobs. -/
inductive ApiRequest where
  | upload (c : UploadCall)
  | chat (c : ChatCall) (agent : AgentReplies)

/-- What a request returns. -/
inductive ApiReply where
  | uploaded (r : UploadResponse)
  | streamed
  deriving DecidableEq, Repr

/-- The settings of the API process, and the hash of a file. -/
structure ApiSettings where
  buffer : BufferSettings
  upload : UploadSettings
  sha256 : List UInt8 → String

/-- The API process, with a worker as its environment. -/
def apiService (cfg : ApiSettings) (worker : WorkerSettings) :
    Service ApiCalls ApiErr ApiWorld ApiRequest WorkerStep ApiReply where
  program
    | .upload c => ApiReply.uploaded <$> uploadFiles cfg.sha256 cfg.upload c
    | .chat c _ => (fun _ => ApiReply.streamed) <$> chatStream cfg.buffer c
  enter := ApiWorld.openSessions
  handle rid
    | .upload _ => apiHandler rid .none
    | .chat _ agent => apiHandler rid agent
  env := WorkerStep.step worker

/-- A state of the API and the broker. -/
abbrev ApiState := Service.State ApiCalls ApiErr ApiWorld ApiRequest ApiReply

/-- A step of the API or of the worker. -/
abbrev ApiLabel := Service.Label ApiErr ApiRequest WorkerStep

/-- Any database; the API process has no pool yet, and the broker no job. -/
def ApiWorld.start (w : ApiWorld) : ApiWorld :=
  { w with arqPool := none, broker := ⟨fun _ => [], [], []⟩ }

/-- The job for which `enqueue_job` returns in a step. -/
def returnedJob (s : ApiState) : ApiLabel → Option Job
  | .call pid .ok =>
    match s.procs pid with
    | some ⟨_, .call (.enqueueJob function arg) _⟩ =>
      s.world.arqPool.map fun _ => ⟨s.world.nextUuid, function, arg⟩
    | _ => none
  | _ => none

/-- The jobs for which `enqueue_job` has returned in a run. -/
def returnedJobs (cfg : ApiSettings) (worker : WorkerSettings) (s : ApiState) : List ApiLabel → List Job
  | [] => []
  | l :: ls =>
    (returnedJob s l).toList ++
      match (apiService cfg worker).step s l with
      | some s' => returnedJobs cfg worker s' ls
      | none => []

/-- The queue that the worker polls is empty, and no job is running. -/
def Drained (worker : WorkerSettings) (s : ApiState) : Prop :=
  s.world.broker.queues worker.queueName = [] ∧ s.world.broker.running = []

/-- A drained worker has picked up every job of the run so far. -/
def Delivers (cfg : ApiSettings) (worker : WorkerSettings) (s : ApiState) (ls : List ApiLabel) : Prop :=
  ∀ t, (apiService cfg worker).run s ls = some t → Drained worker t →
    ∀ j ∈ returnedJobs cfg worker s ls, j ∈ t.world.broker.picked

/-- No `enqueue_job` returns in a step. -/
def EnqueuesNothing (s : ApiState) (l : ApiLabel) : Prop := returnedJob s l = none

end LegalRag
