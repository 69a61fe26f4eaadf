import Skp.Errno
import Skp.Foundations.Runs

/-! # The transports of a server

`attach_xprt`, `detach_xprt`, `xprt_move`, `destroy_xprt`, `stop_xprts` and the closing path of
`process_xprt_event` on the transports of one server, by any number of threads. Taking and giving
back the lock of the server, every read of `xprt->server`, every operation on the attached bit and
every change under the lock that others may see before the unlock is a step of its own. What
`xprt_move` copies to `alias` and clears in `src` between the test of the bit and the link of
`alias` is one step, since no other thread has `alias`. A `BUG_ON` stops the run. `xprt_dict_free`
runs some time after the last reference is gone. -/
namespace Skp.Server
set_option autoImplicit false
open Skp.Foundations

/-- Where a thread is: outside; in the callback of a transport; in `attach_xprt` before the lock,
the test, `set_bit` and the unlock; in `detach_xprt` before the read of `server`,
`test_and_clear_bit`, the lock, the removal and the unlock; before the list's reference is given
back, `barrier_xprt`, and before the last `xprt_put` of the call; in `xprt_move` before the read,
the lock, `test_and_clear_bit`, the copy, the link, `set_bit`, `xprt_put` of `src` and the unlock;
in `stop_xprts` before the lock, `xprt_get` of the first entry and the unlock. `event` says that the
call is made in the callback of the transport, or of `src`. -/
inductive AttachPc (X : Type) where
  | idle
  | inEvent (x : X)
  | attachLock (x : X) (serv : Bool)
  | attachTest (x : X) (serv : Bool)
  | attachBit (x : X)
  | attachUnlock (x : X)
  | detachRead (x : X) (event : Bool)
  | detachClear (x : X) (event : Bool)
  | detachLock (x : X) (event : Bool)
  | detachRemove (x : X) (event : Bool)
  | detachUnlock (x : X) (event : Bool)
  | drop (x : X) (event : Bool)
  | barrier (x : X)
  | lastPut (x : X)
  | moveRead (a x : X) (event : Bool)
  | moveLock (a x : X) (event : Bool)
  | moveClear (a x : X) (event : Bool)
  | moveCopy (a x : X) (event : Bool)
  | moveLink (a x : X) (event : Bool)
  | moveBit (a x : X) (event : Bool)
  | movePut (a x : X) (event : Bool)
  | moveUnlock (a x : X) (event : Bool)
  | stopLock
  | stopGet
  | stopUnlock (x : X)
deriving DecidableEq

/-- `known x` says that the transport exists, `users x` is the number of references that its users
have outside these calls, and `rc x` what `attach_xprt` has returned. `taken x` and `dropped x`
count the references that the list has got and that have been given back for it. `serverRefs` is
`server->refs`. -/
structure ServerState (X T : Type) where
  lock : Option T
  nrXprts : ℕ
  maxXprts : ℕ
  xprtList : List X
  serverRefs : ℕ
  known : X → Bool
  server : X → Bool
  attached : X → Bool
  refs : X → ℕ
  users : X → ℕ
  rc : X → Option ℤ
  taken : X → ℕ
  dropped : X → ℕ
  pc : T → AttachPc X

/-- `attach` by the thread that made the transport; `event` is a callback of a transport that has a
server, where `hold`, `moveInEvent`, `close` and `leave` may follow; `stop` is a round of
`stop_xprts`; `step` is the next step of a call. Who has a reference may take another one or give it
back, and `hold` is one that a callback takes. -/
inductive AttachAct (X T : Type) where
  | attach (t : T) (x : X) (serv : Bool)
  | event (t : T) (x : X)
  | close (t : T)
  | leave (t : T)
  | hold (t : T)
  | moveInEvent (t : T) (a : X)
  | move (t : T) (a x : X)
  | destroy (t : T) (x : X)
  | stop (t : T)
  | step (t : T)
  | get (x : X)
  | put (x : X)
  | free (x : X)
deriving DecidableEq

section Steps
variable {X T : Type} [DecidableEq X] [DecidableEq T]

def ServerState.goto (s : ServerState X T) (t : T) (pc : AttachPc X) : ServerState X T :=
  { s with pc := Function.update s.pc t pc }

/-- `xprt_get` -/
def ServerState.getRef (s : ServerState X T) (x : X) : ServerState X T :=
  { s with refs := Function.update s.refs x (s.refs x + 1) }

/-- `xprt_put`, without the release. -/
def ServerState.putRef (s : ServerState X T) (x : X) : ServerState X T :=
  { s with refs := Function.update s.refs x (s.refs x - 1) }

def ServerState.setUsers (s : ServerState X T) (x : X) (n : ℕ) : ServerState X T :=
  { s with users := Function.update s.users x n }

def ServerState.setAttached (s : ServerState X T) (x : X) (b : Bool) : ServerState X T :=
  { s with attached := Function.update s.attached x b }

def ServerState.setServer (s : ServerState X T) (x : X) (b : Bool) : ServerState X T :=
  { s with server := Function.update s.server x b }

def ServerState.lockBy (s : ServerState X T) (t : T) (pc : AttachPc X) : Option (ServerState X T) :=
  if s.lock = none then some ({ s with lock := some t }.goto t pc) else none

def ServerState.unlock (s : ServerState X T) (t : T) (pc : AttachPc X) : ServerState X T :=
  { s with lock := none }.goto t pc

/-- The reference and the entry of the list for `x`. -/
def ServerState.link (s : ServerState X T) (x : X) (front : Bool) : ServerState X T :=
  { s.getRef x with
    xprtList := if front = true then x :: s.xprtList else s.xprtList ++ [x]
    taken := Function.update s.taken x (s.taken x + 1) }

def ServerState.unlink (s : ServerState X T) (x : X) : ServerState X T :=
  { s with xprtList := s.xprtList.erase x }

/-- `__xprt_put` of the reference that the list had. -/
def ServerState.dropRef (s : ServerState X T) (x : X) : ServerState X T :=
  { s.putRef x with dropped := Function.update s.dropped x (s.dropped x + 1) }

/-- Where a thread goes on when its call returns: a user, or the callback. -/
def ServerState.back (s : ServerState X T) (t : T) (x : X) (event : Bool) : ServerState X T :=
  if event = true then s.goto t (.inEvent x) else (s.setUsers x (s.users x + 1)).goto t .idle

/-- The next step of a call. -/
def attachStep (s : ServerState X T) (t : T) : AttachPc X → Option (ServerState X T)
  | .attachLock x serv => s.lockBy t (.attachTest x serv)
  | .attachTest x serv =>
      if s.nrXprts < s.maxXprts then
        some (({ s with nrXprts := s.nrXprts + 1 }.link x serv).goto t (.attachBit x))
      else if 2 ≤ s.serverRefs then
        some (({ s with
          serverRefs := s.serverRefs - 1
          rc := Function.update s.rc x (some eMFILE) }.setServer x false).goto t
          (.attachUnlock x))
      else none
  | .attachBit x =>
      if s.attached x = false then
        some (({ s with rc := Function.update s.rc x (some 0) }.setAttached x true).goto t (.attachUnlock x))
      else none
  | .attachUnlock x => some ((s.setUsers x (s.users x + 1)).unlock t .idle)
  | .detachRead x event =>
      some (s.goto t (if s.server x = true then .detachClear x event else if event = true then
        .lastPut x else .barrier x))
  | .detachClear x event =>
      some (if s.attached x = true then (s.setAttached x false).goto t (.detachLock x event)
        else s.goto t (if event = true then .lastPut x else .barrier x))
  | .detachLock x event => s.lockBy t (.detachRemove x event)
  | .detachRemove x event =>
      if s.server x = true ∧ x ∈ s.xprtList then
        some (({ s with nrXprts := s.nrXprts - 1 }.unlink x).goto t (.detachUnlock x event))
      else none
  | .detachUnlock x event => some (s.unlock t (.drop x event))
  | .drop x _ => if 2 ≤ s.refs x then some ((s.dropRef x).goto t (.lastPut x)) else none
  | .barrier x => if s.server x = true ∧ s.lock ≠ none then none else some (s.goto t (.lastPut x))
  | .lastPut x => some ((s.putRef x).goto t .idle)
  | .moveRead a x event =>
      some (if s.server x = true then s.goto t (.moveLock a x event)
        else (s.setUsers a (s.users a + 1)).back t x event)
  | .moveLock a x event => s.lockBy t (.moveClear a x event)
  | .moveClear a x event =>
      some (if s.attached x = true then (s.setAttached x false).goto t (.moveCopy a x event)
        else s.goto t (.moveUnlock a x event))
  | .moveCopy a x event =>
      if x ∈ s.xprtList then
        some ((((({ s with refs := Function.update s.refs a 1 }.setServer a (s.server x)).setServer
          x false).unlink x)).goto t
          (.moveLink a x event))
      else none
  | .moveLink a x event => some ((s.link a false).goto t (.moveBit a x event))
  | .moveBit a x event =>
      if s.attached a = false then some ((s.setAttached a true).goto t (.movePut a x event)) else none
  | .movePut a x event => some ((s.dropRef x).goto t (.moveUnlock a x event))
  | .moveUnlock a x event => some (({ s with lock := none }.setUsers a (s.users a + 1)).back t x event)
  | .stopLock => s.lockBy t .stopGet
  | .stopGet =>
      match s.xprtList with
      | [] => some (s.unlock t .idle)
      | x :: _ => some ((if 0 < s.refs x then s.getRef x else s).goto t (.stopUnlock x))
  | .stopUnlock x => some (s.unlock t (.detachRead x false))
  | .idle => none
  | .inEvent _ => none

/-- A new transport with one reference. -/
def ServerState.construct (s : ServerState X T) (x : X) : ServerState X T :=
  { s with known := Function.update s.known x true, refs := Function.update s.refs x 1 }

def serverStep (s : ServerState X T) : AttachAct X T → Option (ServerState X T)
  | .attach t x serv =>
      if s.pc t = .idle ∧ s.known x = false ∧ 0 < s.serverRefs then
        some ((({ s with serverRefs := s.serverRefs + 1 }.construct x).setServer x true).goto t
          (.attachLock x serv))
      else none
  | .event t x =>
      if s.pc t = .idle ∧ s.server x = true ∧ 0 < s.refs x then
        some ((s.getRef x).goto t (.inEvent x)) else none
  | .close t =>
      match s.pc t with
      | .inEvent x => some (s.goto t (.detachRead x true))
      | _ => none
  | .leave t =>
      match s.pc t with
      | .inEvent x => some (s.goto t (.lastPut x))
      | _ => none
  | .hold t =>
      match s.pc t with
      | .inEvent x => some ((s.getRef x).setUsers x (s.users x + 1))
      | _ => none
  | .moveInEvent t a =>
      match s.pc t with
      | .inEvent x => if s.known a = false then some ((s.construct a).goto t (.moveRead a x true)) else none
      | _ => none
  | .move t a x =>
      if s.pc t = .idle ∧ s.known a = false ∧ 0 < s.users x then
        some (((s.construct a).setUsers x (s.users x - 1)).goto t (.moveRead a x false))
      else none
  | .destroy t x =>
      if s.pc t = .idle ∧ 0 < s.users x then
        some ((s.setUsers x (s.users x - 1)).goto t (.detachRead x false))
      else none
  | .stop t => if s.pc t = .idle then some (s.goto t .stopLock) else none
  | .step t => attachStep s t (s.pc t)
  | .get x => if 0 < s.users x then some ((s.getRef x).setUsers x (s.users x + 1)) else none
  | .put x => if 0 < s.users x then some ((s.putRef x).setUsers x (s.users x - 1)) else none
  | .free x =>
      if s.known x = true ∧ s.refs x = 0 ∧ s.server x = true ∧ s.lock = none ∧ 2 ≤ s.serverRefs then
        some ({ s with serverRefs := s.serverRefs - 1 }.setServer x false)
      else none

end Steps

/-- A server without transports; its owner has one reference. -/
def serverInit {X T : Type} (maxXprts : ℕ) : ServerState X T where
  lock := none
  nrXprts := 0
  maxXprts := maxXprts
  xprtList := []
  serverRefs := 1
  known := fun _ => false
  server := fun _ => false
  attached := fun _ => false
  refs := fun _ => 0
  users := fun _ => 0
  rc := fun _ => none
  taken := fun _ => 0
  dropped := fun _ => 0
  pc := fun _ => .idle

end Skp.Server
