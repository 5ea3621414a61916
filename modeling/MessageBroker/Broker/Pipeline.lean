import MessageBroker.Broker.Others
import MessageBroker.Broker.Passes
import MessageBroker.Clients.Input
import MessageBroker.Lib.Pipe
import Mathlib.Logic.Function.Basic

/-!
# Publishers, broker and subscribers

Any number of publishers and subscribers of one box with their pipes and their sessions,
each making its own steps: the loops of `pub.c` and `sub.c`, the read loop of
`start_publisher` and the outer loop of `start_subscriber`. Between these steps come
requests, messages and passes of other boxes, each of them one step: their calls of
TecnicoFS are not interleaved with those of the box. The messages are written to and read
from the pipes as records of one size, which a pipe takes at once. What the arrays of the
programs hold before they are filled is a part of the label of a step.

A run with every order of the steps has one order of the messages: each publisher's
messages stand in it as they were typed, and every subscriber prints what it prints in
this order.
-/

namespace MessageBroker.Broker

open Buffer Records Transition Tfs
open Clients.Publisher (fgets createMessageFrom inputMessages lineMessage newline)

/-! ### The parties -/

inductive PublisherPhase
  /-- The session has found the box without a publisher, and not yet counted itself. -/
  | admitted
  | reading
  /-- A message is in `message_buffer`. -/
  | holding
  | returned
deriving DecidableEq

/-- A publisher with its pipe and its session. -/
structure Publishing where
  /-- All that the client has on its standard input. -/
  input : List UInt8
  stdin : List UInt8
  /-- The client has the pipe open. -/
  writing : Bool
  pipe : List UInt8
  phase : PublisherPhase
  messageBuffer : List UInt8
  buffer : List UInt8

inductive SubscriberPhase
  | polling
  /-- A pass has found the message in `buffer`. -/
  | sending (buffer : List UInt8)
  | returned

/-- A subscriber with its pipe and its session. -/
structure Subscribing where
  bytesProcessed : Nat
  phase : SubscriberPhase
  pipe : List UInt8
  /-- The client has the pipe open. -/
  reading : Bool
  /-- The path of the pipe exists. -/
  path : Bool
  message : List UInt8
  messageBuffer : List UInt8
  stdout : List UInt8
  messagesReceived : Nat

structure Pipeline where
  /-- The broker has not been killed by a write to a pipe that nobody reads. -/
  alive : Bool
  server : Server
  /-- The strings passed to `tfs_write`, each with the publisher that it comes from. -/
  published : List (Nat × CString)
  publishers : Nat → Option Publishing
  subscribers : Nat → Option Subscribing

def Pipeline.initial (srv : Server) : Pipeline := ⟨true, srv, [], fun _ => none, fun _ => none⟩

inductive PipelineLabel
  /-- The session of publisher `p` answers `OK`. -/
  | accept (p : Nat) (input : List UInt8) (arrays : Arrays)
  | count (p : Nat)
  /-- The client reads a line and writes its message. -/
  | send (p : Nat) (arrays : Arrays)
  /-- The client closes its pipe at the end of its input. -/
  | close (p : Nat)
  | read (p : Nat)
  /-- The session finds its pipe closed. -/
  | finish (p : Nat)
  | publish (p : Nat)
  /-- The session of subscriber `t` answers `OK` and counts itself. -/
  | subscribe (t : Nat) (arrays : Arrays)
  | pass (t : Nat) (arrays : Arrays)
  | forward (t : Nat) (arrays : Arrays)
  | receive (t : Nat)
  /-- The handler of `SIGINT` closes the pipe, and removes its path. -/
  | interrupt (t : Nat)
  | unlink (t : Nat)
  /-- A request, a message or a pass of another box. -/
  | other (box : BoxName) (a : BoxStep)

/-- The steps of the subscribers do not need the broker. -/
def PipelineLabel.ofSubscriber : PipelineLabel → Bool
  | receive _ => true
  | interrupt _ => true
  | unlink _ => true
  | _ => false

namespace Publishing

/-- A session that has answered `OK` to a client with the given input. -/
def start (input : List UInt8) (arrays : Arrays) : Publishing :=
  { input := input, stdin := input, writing := true, pipe := [], phase := .admitted
    messageBuffer := arrays.messageBuffer, buffer := arrays.buffer }

/-- One turn of the loop of `pub.c`, whose `mkfifo` finds that the path exists. The `open` of the
client returns when the session has opened the pipe, too. -/
def send (capacity : Nat) (arrays : Arrays) (c : Publishing) : Option Publishing :=
  if c.writing = true ∧ c.phase ≠ .admitted then do
    let (line, rest) ← fgets pSMessageSize c.stdin
    let bufferInput := line ++ 0 :: arrays.buffer.drop (line.length + 1)
    let message ← createMessageFrom bufferInput arrays.messageBuffer
    let pipe ← Pipe.write capacity message c.pipe
    some { c with stdin := rest, pipe := pipe }
  else none

/-- The `sig_handler` of `pub.c`, which is called at the end of the input. -/
def close (c : Publishing) : Option Publishing :=
  if c.writing = true ∧ c.phase ≠ .admitted ∧ c.stdin = [] then some { c with writing := false }
  else none

def read (c : Publishing) : Option Publishing :=
  if c.phase = .reading then do
    let (chunk, rest) ← Pipe.read (pSMessageSize + 3) c.pipe
    some { c with
      pipe := rest, phase := .holding, messageBuffer := readInto chunk c.messageBuffer }
  else none

/-- A read that returns `0`. -/
def finish (c : Publishing) : Option Publishing :=
  if c.phase = .reading ∧ c.pipe = [] ∧ c.writing = false then some { c with phase := .returned }
  else none

/-- What the session does with a message under the lock of the box, and the string that it passes
to `tfs_write`. -/
def publish (index : Nat) (box : BoxName) (srv : Server) (c : Publishing) :
    Option (CString × Publishing × Server) :=
  if c.phase = .holding then do
    let e ← extract c.messageBuffer c.buffer
    let (goesOn, srv) ← (appendMessage srv index box e.payload).toOption
    let phase := if goesOn then .reading else .returned
    some (.ofBuffer e.payload, { c with phase := phase, buffer := e.buffer }, srv)
  else none

end Publishing

namespace Subscribing

def start (arrays : Arrays) : Subscribing :=
  { bytesProcessed := 0, phase := .polling, pipe := [], reading := true, path := true
    message := arrays.messageBuffer, messageBuffer := arrays.buffer, stdout := []
    messagesReceived := 0 }

/-- One pass of the session, up to the call of `create_message`. -/
def pass (index : Nat) (box : BoxName) (arrays : Arrays) (srv : Server) (c : Subscribing) :
    Option (Subscribing × Server) :=
  match c.phase with
  | .polling => do
    let (result, srv) ← Broker.pass srv index box c.bytesProcessed arrays.buffer (!c.path)
    match result with
    | .ended => some ({ c with phase := .returned }, srv)
    | .goesOn bytesProcessed none => some ({ c with bytesProcessed := bytesProcessed }, srv)
    | .goesOn bytesProcessed (some buffer) =>
      some ({ c with bytesProcessed := bytesProcessed, phase := .sending buffer }, srv)
  | _ => none

/-- The rest of the turn behind a pass that has found a message; `none` for the subscriber if the
write kills the broker. -/
def forward (capacity : Nat) (arrays : Arrays) (c : Subscribing) : Option (Option Subscribing) :=
  match c.phase with
  | .sending buffer => do
    let message ← createMessageIn buffer arrays.messageBuffer
    if c.reading = true then do
      let pipe ← Pipe.write capacity message c.pipe
      some (some { c with pipe := pipe, phase := .polling })
    else some none
  | _ => none

/-- One turn of the loop of `sub.c` whose read returns something and whose `mkfifo` finds that the
path exists. -/
def receive (c : Subscribing) : Option Subscribing :=
  if c.reading = true then do
    let (got, rest) ← Pipe.read (pSMessageSize + 3) c.pipe
    let message := readInto got c.message
    let messageBuffer ← copyFrom message 3 pSMessageSize 0 c.messageBuffer
    let len ← strlen messageBuffer
    some { c with
      pipe := rest, message := message, messageBuffer := messageBuffer
      stdout := c.stdout ++ (messageBuffer.take len ++ [newline])
      messagesReceived := c.messagesReceived + 1 }
  else none

def interrupt (c : Subscribing) : Option Subscribing :=
  if c.reading = true then some { c with reading := false, pipe := [] } else none

def unlink (c : Subscribing) : Option Subscribing :=
  if c.reading = false ∧ c.path = true then some { c with path := false } else none

end Subscribing

namespace Pipeline

def setServer (s : Pipeline) (srv : Server) : Pipeline := { s with server := srv }

def setPublisher (s : Pipeline) (p : Nat) (c : Publishing) : Pipeline :=
  { s with publishers := Function.update s.publishers p (some c) }

def setSubscriber (s : Pipeline) (t : Nat) (c : Subscribing) : Pipeline :=
  { s with subscribers := Function.update s.subscribers t (some c) }

@[simp] theorem setPublisher_self (s : Pipeline) (p : Nat) (c : Publishing) :
    (s.setPublisher p c).publishers p = some c := Function.update_self ..

@[simp] theorem setSubscriber_self (s : Pipeline) (t : Nat) (c : Subscribing) :
    (s.setSubscriber t c).subscribers t = some c := Function.update_self ..

/-- What the parties do, for the box in slot `index` and pipes of the given capacity. -/
def act (capacity : Nat) (box : BoxName) (index : Nat) (s : Pipeline) :
    PipelineLabel → Option Pipeline
  | .accept p input arrays => do
    let (i, srv) ← (registerEntry s.server box).toOption
    if s.publishers p = none ∧ i = index ∧ (srv.boxes index).nPublishers ≠ 1 then
      some ((s.setServer srv).setPublisher p (.start input arrays))
    else none
  | .count p => do
    let c ← s.publishers p
    let srv := s.server.modifyBox index fun b => { b with nPublishers := b.nPublishers + 1 }
    if c.phase = .admitted then some ((s.setServer srv).setPublisher p { c with phase := .reading })
    else none
  | .send p arrays => do
    let c ← s.publishers p
    let c ← c.send capacity arrays
    some (s.setPublisher p c)
  | .close p => do
    let c ← s.publishers p
    let c ← c.close
    some (s.setPublisher p c)
  | .read p => do
    let c ← s.publishers p
    let c ← c.read
    some (s.setPublisher p c)
  | .finish p => do
    let c ← s.publishers p
    let c ← c.finish
    let srv := s.server.modifyBox index fun b => { b with nPublishers := b.nPublishers - 1 }
    some ((s.setServer srv).setPublisher p c)
  | .publish p => do
    let c ← s.publishers p
    let (m, c, srv) ← c.publish index box s.server
    some { (s.setServer srv).setPublisher p c with published := s.published ++ [(p, m)] }
  | .subscribe t arrays => do
    let (i, srv) ← (registerEntry s.server box).toOption
    let srv := srv.modifyBox index fun b => { b with nSubscribers := b.nSubscribers + 1 }
    if s.subscribers t = none ∧ i = index then
      some ((s.setServer srv).setSubscriber t (.start arrays))
    else none
  | .pass t arrays => do
    let c ← s.subscribers t
    let (c, srv) ← c.pass index box arrays s.server
    some ((s.setServer srv).setSubscriber t c)
  | .forward t arrays => do
    let c ← s.subscribers t
    let r ← c.forward capacity arrays
    match r with
    | some c => some (s.setSubscriber t c)
    | none => some { s with alive := false }
  | .receive t => do
    let c ← s.subscribers t
    let c ← c.receive
    some (s.setSubscriber t c)
  | .interrupt t => do
    let c ← s.subscribers t
    let c ← c.interrupt
    some (s.setSubscriber t c)
  | .unlink t => do
    let c ← s.subscribers t
    let c ← c.unlink
    some (s.setSubscriber t c)
  | .other other a =>
    if other.name ≠ box.name then (a.perform s.server other).toOption.map s.setServer else none

/-- The broker and the publishers, whose writes need it, stop when it is killed. -/
def step (capacity : Nat) (box : BoxName) (index : Nat) (s : Pipeline) (a : PipelineLabel) :
    Option Pipeline :=
  if s.alive = true ∨ a.ofSubscriber = true then s.act capacity box index a else none

end Pipeline

end MessageBroker.Broker
