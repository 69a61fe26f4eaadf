import Skp.Foundations.Runs

/-! # The state word of a transport

`process_xprt_event` of `src/server/xprt.c` on the event thread, `shutdown_xprt` on any number of
threads and one `destroy_xprt`, on the word `flags` of one transport. Every read of the word, every
`cmpxchg`, every operation on a bit and every callback is a step of its own. What the kernel and the
handshake answer is part of the step. A call of a callback is an entry of `log`, also when none is
installed; a transport without `do_handshake` is one whose handshake always gives 0. `destroy_xprt`
goes past `uev_stream_delete_sync` when no event is being processed, and none is afterwards. -/
namespace Skp.Server
set_option autoImplicit false
open Skp.Foundations

inductive XprtType where
  | tcpserv
  | tcpclnt
  | tcptemp
deriving DecidableEq

/-- The status bits of `xprt->flags`. -/
structure XprtFlags where
  attached : Bool
  connecting : Bool
  opened : Bool
  closed : Bool
  shutwr : Bool
  shutrd : Bool
  connrefused : Bool
  handshaked : Bool
deriving DecidableEq

structure EventMask where
  read : Bool
  write : Bool
  eof : Bool
  error : Bool
deriving DecidableEq

def eventError : EventMask := ⟨false, false, false, true⟩

def eventEof : EventMask := ⟨false, false, true, false⟩

/-- The argument of `shutdown`. -/
inductive ShutHow where
  | rd
  | wr
  | rdwr
deriving DecidableEq

/-- `on_changed`, `on_recv`, `on_send` and `on_shutdown`, with `none` for the call in
`destroy_xprt`, and a `connect` that gives 0 or `EISCONN`. -/
inductive XprtNote where
  | opened (mask : EventMask)
  | closed (mask : EventMask)
  | connrefused (mask : EventMask)
  | recv (mask : EventMask)
  | send (mask : EventMask)
  | shutdown (how : Option ShutHow)
  | connected
deriving DecidableEq

/-- What `connect` gives on a nonblocking socket, by the branches of `__eat_xprt_connecting`. -/
inductive ConnResult where
  | success
  | eisconn
  | ealready
  | failed
deriving DecidableEq

inductive HandshakeResult where
  | success
  | eagain
  | failed
deriving DecidableEq

/-- Where `process_xprt_event` goes on when the `eat_xprt_close` of `intl_xprt_shutdown` gives 0:
`eat_xprt_connecting`, `do_xprt_handshake`, or its own call. -/
inductive CloseSite where
  | connecting
  | handshake
  | event
deriving DecidableEq

/-- Where the event thread is: outside; before `test_bit` and `test_and_clear_bit` of the connecting
bit, the read of the word and `connect`; before `test_bit` of the handshaked bit, the read, the
handshake and `set_bit`; before the read, the `cmpxchg` and the call of `eat_xprt_open`; before the
tests and the calls of `eat_xprt_rdready` and `eat_xprt_wrready`; in `intl_xprt_shutdown`; in
`shutdown_xprt_stats` before the read, the `cmpxchg` and the call; before the read, the `cmpxchg`
and the call of `eat_xprt_close`; and before `detach_xprt`. -/
inductive EventPc where
  | idle
  | connTest (mask : EventMask)
  | connClear (mask : EventMask)
  | connRead (mask : EventMask)
  | connect (mask : EventMask)
  | shakeTest (mask : EventMask)
  | shakeRead (mask : EventMask)
  | shake (mask : EventMask)
  | shakeSet (mask : EventMask)
  | openRead (mask : EventMask)
  | openSwap (mask : EventMask) (flags : XprtFlags)
  | openCall (mask : EventMask)
  | rdTest (mask : EventMask)
  | rdCall (mask : EventMask)
  | wrTest (mask : EventMask)
  | wrCall (mask : EventMask)
  | refuse (mask : EventMask) (site : CloseSite)
  | shutRead (mask : EventMask) (site : CloseSite)
  | shutSwap (mask : EventMask) (site : CloseSite) (flags : XprtFlags)
  | shutCall (mask : EventMask) (site : CloseSite)
  | closeRead (mask : EventMask) (site : CloseSite)
  | closeSwap (mask : EventMask) (site : CloseSite) (flags : XprtFlags)
  | closeCall (mask : EventMask) (site : CloseSite) (flags : XprtFlags)
  | detach
deriving DecidableEq

/-- A thread in `shutdown_xprt`. -/
inductive ShutPc where
  | idle
  | read (how : ShutHow)
  | swap (how : ShutHow) (flags : XprtFlags)
  | call (how : ShutHow)
deriving DecidableEq

/-- The thread in `destroy_xprt`: not there; before `detach_xprt`, `uev_stream_delete_sync`,
`test_and_set_bit`, the read, the `cmpxchg`, `test_and_clear_bit`, the two tests and the two calls;
past them. -/
inductive DestroyPc where
  | idle
  | detach
  | sync
  | setClosed
  | swapRead
  | swap (flags : XprtFlags)
  | connClear
  | openTest
  | shakeTest
  | shutCall
  | closeCall
  | done
deriving DecidableEq

structure XprtState (T : Type) where
  type : XprtType
  flags : XprtFlags
  event : EventPc
  shut : T → ShutPc
  destroy : DestroyPc
  log : List XprtNote

/-- A step of the event thread takes the mask of the event, what `connect` gives or what the
handshake gives, where it needs one. -/
inductive XprtAct (T : Type) where
  | begin (mask : EventMask)
  | event
  | connect (result : ConnResult)
  | handshake (result : HandshakeResult)
  | shutdown (t : T) (how : ShutHow)
  | shut (t : T)
  | destroy
deriving DecidableEq

def XprtFlags.shutRdwr (f : XprtFlags) : Bool := f.shutrd && f.shutwr

/-- `xprt_flags_closed` -/
def XprtFlags.isClosed (f : XprtFlags) : Bool := f.closed || f.shutRdwr

def ShutHow.rds : ShutHow → Bool
  | .rd => true
  | .wr => false
  | .rdwr => true

def ShutHow.wrs : ShutHow → Bool
  | .rd => false
  | .wr => true
  | .rdwr => true

/-- The `break` of `shutdown_xprt_stats`: closed, or all of the bits are set, or one bit is asked
for and set. -/
def shutBreaks (how : ShutHow) (f : XprtFlags) : Bool :=
  f.closed ||
    match how with
    | .rd => f.shutrd
    | .wr => f.shutwr
    | .rdwr => f.shutRdwr

/-- `flags | mask`, without the connecting bit when both directions are shut. -/
def shutBits (how : ShutHow) (f : XprtFlags) : XprtFlags :=
  { f with
    shutrd := f.shutrd || how.rds
    shutwr := f.shutwr || how.wrs
    connecting := f.connecting && decide (how ≠ .rdwr) }

/-- `shutdown_xprt_tcpserv` shuts both directions. -/
def shutHow (type : XprtType) (how : ShutHow) : ShutHow := if type = .tcpserv then .rdwr else how

def EventMask.rdReady (m : EventMask) : Bool := m.read || m.eof || m.error

def EventMask.wrReady (m : EventMask) : Bool := m.write || m.error

/-- What follows `eat_xprt_close` when it gives 0. -/
def CloseSite.next (m : EventMask) : CloseSite → EventPc
  | .connecting => .shakeTest m
  | .handshake => .openRead m
  | .event => .idle

/-- The mask that `intl_xprt_shutdown` passes on. -/
def CloseSite.mask (m : EventMask) : CloseSite → EventMask
  | .event => m
  | _ => eventError

section Steps
variable {T : Type} [DecidableEq T]

def XprtState.goto (s : XprtState T) (pc : EventPc) : XprtState T := { s with event := pc }

def XprtState.note (s : XprtState T) (n : XprtNote) : XprtState T := { s with log := s.log ++ [n] }

def XprtState.setFlags (s : XprtState T) (f : XprtFlags) : XprtState T := { s with flags := f }

/-- The next step of the event thread where nothing is asked of the kernel or of a callback. -/
def eventStep (s : XprtState T) : EventPc → Option (XprtState T)
  | .connTest m => some (s.goto (if s.flags.connecting then .connClear m else .shakeTest m))
  | .connClear m =>
      some (if s.flags.connecting then
          (s.setFlags { s.flags with connecting := false }).goto (if s.type = .tcpclnt then
            .connRead m else .shakeTest m)
        else s.goto (.shakeTest m))
  | .connRead m =>
      some (s.goto (if s.flags.isClosed then .detach else if m.error then .refuse m .connecting
        else .connect m))
  | .shakeTest m => some (s.goto (if s.flags.handshaked then .openRead m else .shakeRead m))
  | .shakeRead m => some (s.goto (if s.flags.isClosed then .refuse m .handshake else .shake m))
  | .shakeSet m => some ((s.setFlags { s.flags with handshaked := true }).goto (.openRead m))
  | .openRead m =>
      some (s.goto (if s.flags.opened || s.flags.isClosed then .rdTest m else .openSwap m s.flags))
  | .openSwap m f =>
      some (if s.flags = f then (s.setFlags { f with opened := true }).goto (.openCall m)
        else s.goto (.openRead m))
  | .openCall m => some ((s.note (.opened m)).goto (.rdTest m))
  | .rdTest m =>
      some
        (s.goto (if m.rdReady && !(s.flags.closed || s.flags.shutrd) then .rdCall m else .wrTest m))
  | .rdCall m => some ((s.note (.recv m)).goto (.wrTest m))
  | .wrTest m =>
      some (s.goto (if m.wrReady && !(s.flags.closed || s.flags.shutwr) then .wrCall m
        else .closeRead m .event))
  | .wrCall m => some ((s.note (.send m)).goto (if m.error then .shutRead m .event else .closeRead m .event))
  | .refuse m site => some ((s.setFlags { s.flags with connrefused := true }).goto (.shutRead m site))
  | .shutRead m site =>
      some (s.goto (if shutBreaks .rdwr s.flags then .closeRead m site else .shutSwap m site s.flags))
  | .shutSwap m site f =>
      some (if s.flags = f then (s.setFlags (shutBits .rdwr f)).goto (.shutCall m site)
        else s.goto (.shutRead m site))
  | .shutCall m site => some ((s.note (.shutdown (some .rdwr))).goto (.closeRead m site))
  | .closeRead m site =>
      some (s.goto (if s.flags.closed then .detach else if s.flags.shutRdwr then
        .closeSwap m site s.flags else site.next m))
  | .closeSwap m site f =>
      some (if s.flags = f then
          (s.setFlags { f with shutrd := false, shutwr := false, closed := true }).goto
            (if f.opened || f.connrefused then .closeCall m site f else .detach)
        else s.goto (.closeRead m site))
  | .closeCall m site f =>
      some ((s.note (if f.opened then .closed (site.mask m) else .connrefused (site.mask m))).goto .detach)
  | .detach => some ((s.setFlags { s.flags with attached := false }).goto .idle)
  | .idle => none
  | .connect _ => none
  | .shake _ => none

/-- What `connect` gives. -/
def connectStep (s : XprtState T) (m : EventMask) : ConnResult → XprtState T
  | .success => (s.note .connected).goto (.shakeTest m)
  | .eisconn => (s.note .connected).goto (.shakeTest m)
  | .ealready => s.goto .idle
  | .failed => s.goto (.refuse m .connecting)

def handshakeStep (s : XprtState T) (m : EventMask) : HandshakeResult → XprtState T
  | .success => s.goto (.shakeSet m)
  | .eagain => s.goto .idle
  | .failed => s.goto (.refuse m .handshake)

/-- The next step of a thread in `shutdown_xprt`. -/
def shutStep (s : XprtState T) (t : T) : ShutPc → Option (XprtState T)
  | .read how =>
      some { s with shut := Function.update s.shut t (if shutBreaks how s.flags then .idle
        else .swap how s.flags) }
  | .swap how f =>
      some (if s.flags = f then
        { s.setFlags (shutBits how f) with shut := Function.update s.shut t (.call how) }
        else { s with shut := Function.update s.shut t (.read how) })
  | .call how => some { s.note (.shutdown (some how)) with shut := Function.update s.shut t .idle }
  | .idle => none

def destroyStep (s : XprtState T) : DestroyPc → Option (XprtState T)
  | .idle => some { s with destroy := .detach }
  | .detach => some { s.setFlags { s.flags with attached := false } with destroy := .sync }
  | .sync => if s.event = .idle then some { s with destroy := .setClosed } else none
  | .setClosed =>
      some { s.setFlags { s.flags with closed := true } with destroy := if s.flags.closed then .done
        else .swapRead }
  | .swapRead => some { s with destroy := .swap s.flags }
  | .swap f =>
      some (if s.flags = f then { s.setFlags { f with shutrd := false, shutwr := false }
        with destroy := .connClear }
        else { s with destroy := .swapRead })
  | .connClear =>
      some { s.setFlags { s.flags with connecting := false } with
        destroy := if s.flags.connecting then .done else .openTest }
  | .openTest => some { s with destroy := if s.flags.opened then .shakeTest else .done }
  | .shakeTest => some { s with destroy := if s.flags.handshaked then .shutCall else .closeCall }
  | .shutCall => some { s.note (.shutdown none) with destroy := .closeCall }
  | .closeCall => some { s.note (.closed eventEof) with destroy := .done }
  | .done => none

/-- `destroy_xprt` is before the end of `uev_stream_delete_sync`. -/
def DestroyPc.beforeSync : DestroyPc → Bool
  | .idle => true
  | .detach => true
  | .sync => true
  | _ => false

def xprtStep (s : XprtState T) : XprtAct T → Option (XprtState T)
  | .begin m => if s.event = .idle ∧ s.destroy.beforeSync = true then some (s.goto (.connTest m)) else none
  | .event => eventStep s s.event
  | .connect result =>
      match s.event with
      | .connect m => some (connectStep s m result)
      | _ => none
  | .handshake result =>
      match s.event with
      | .shake m => some (handshakeStep s m result)
      | _ => none
  | .shutdown t how =>
      if s.shut t = .idle then
        some { s with shut := Function.update s.shut t (.read (shutHow s.type how)) } else none
  | .shut t => shutStep s t (s.shut t)
  | .destroy => destroyStep s s.destroy

end Steps

/-- The state word after `attach_xprt`. A listener has its write direction shut; `connecting` says
that `connect` is in progress. -/
def xprtInit {T : Type} (type : XprtType) (connecting : Bool) : XprtState T where
  type := type
  flags :=
    { attached := true
      connecting := connecting
      opened := false
      closed := false
      shutwr := decide (type = .tcpserv)
      shutrd := false
      connrefused := false
      handshaked := false }
  event := .idle
  shut := fun _ => .idle
  destroy := .idle
  log := []

end Skp.Server
