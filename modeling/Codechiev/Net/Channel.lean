import Codechiev.Base.FixedBuffer
import Mathlib.Logic.Function.Basic

/-!
# Channels and the epoll table

`net/Channel.hpp` and `net/EPoll.cpp`. A channel is a socket with its two buffers, and `event_`
holds in turn the mask that epoll reported and the mask the loop asks for. The kernel's epoll
set maps a file descriptor to the mask and the `Channel*` of its last successful `epoll_ctl`.
-/

namespace Codechiev

/-- A file descriptor number. -/
abbrev Fd := ℕ

/-- The address of a `Channel`. -/
abbrev Ptr := ℕ

/-- The bits of `epoll_event.events`. -/
abbrev EventMask := BitVec 32

def EPOLLIN : EventMask := 0x001#32
def EPOLLOUT : EventMask := 0x004#32
def EPOLLERR : EventMask := 0x008#32
def EPOLLHUP : EventMask := 0x010#32
def EPOLLRDHUP : EventMask := 0x2000#32

/-- A value of `errno`. -/
abbrev Errno := ℕ

def EAGAIN : Errno := 11

def kBufferSize : ℕ := 1024 * 8
def kBufferEachTimeSize : ℤ := 256

/-- `channel_buffer`. -/
abbrev ChannelBuffer := FixedBuffer kBufferSize

/-- `class Channel`. -/
structure Channel where
  fd : Fd
  event : EventMask
  connected : Bool
  readbuf : ChannelBuffer
  writebuf : ChannelBuffer

namespace Channel

/-- The constructor `Channel(int fd)`. -/
def new (fd : Fd) : Channel :=
  { fd := fd, event := 0, connected := false, readbuf := .fresh _, writebuf := .fresh _ }

def setEvent (c : Channel) (e : EventMask) : Channel := { c with event := e }

def setConnected (c : Channel) (val : Bool) : Channel := { c with connected := val }

/-- `write(const std::string&)`: the message goes through `c_str()`, so up to its first zero
    byte. -/
def write (c : Channel) (msg : List UInt8) : Channel :=
  { c with writebuf := (c.writebuf.appendStr msg).1 }

/-- `writeEvent()`, whose body is a comment. -/
def writeEvent (c : Channel) : Channel := c

@[simp] theorem write_fd (c : Channel) (msg : List UInt8) : (c.write msg).fd = c.fd := by
  rw [write]

theorem kBufferSize_pos : 0 < kBufferSize := by decide

/-- A message without zero bytes that fits is queued whole. -/
theorem content_write {c : Channel} {msg : List UInt8} (hc : c.writebuf.WF) (hmsg : 0 ∉ msg)
    (hfits : (msg.length : ℤ) ≤ c.writebuf.writable) :
    (c.write msg).writebuf.content = c.writebuf.content ++ msg := by
  have hw := hc.writer_lt
  have hr := hc.reader_nonneg.trans hc.reader_le
  have hlen : msg.length < 2147483648 := by
    simp only [FixedBuffer.writable, kBufferSize] at hfits; omega
  rw [write, FixedBuffer.appendStr, strlen_of_no_nul hmsg, castInt_of_lt hlen]
  rw [FixedBuffer.content_append_of_fits hc msg le_rfl hfits, List.take_length]

end Channel

/-- What epoll holds for one descriptor. -/
structure Registration where
  events : EventMask
  ptr : Ptr
  deriving DecidableEq

/-- The epoll set: the registration of each descriptor in it. -/
abbrev EPoll := Fd → Option Registration

namespace EPoll

/-- `EPOLL_CTL_ADD`, which fails on a descriptor that is already in the set. -/
def ctlAdd (ep : EPoll) (fd : Fd) (r : Registration) : EPoll :=
  if ep fd = none then Function.update ep fd (some r) else ep

/-- `EPOLL_CTL_MOD`, which replaces mask and pointer, and fails on a descriptor that is not in the
    set. -/
def ctlMod (ep : EPoll) (fd : Fd) (r : Registration) : EPoll :=
  if ep fd = none then ep else Function.update ep fd (some r)

/-- `EPOLL_CTL_DEL`. -/
def ctlDel (ep : EPoll) (fd : Fd) : EPoll := Function.update ep fd none

def addChannel (ep : EPoll) (p : Ptr) (c : Channel) : EPoll := ep.ctlAdd c.fd ⟨c.event, p⟩

def setChannel (ep : EPoll) (p : Ptr) (c : Channel) : EPoll := ep.ctlMod c.fd ⟨c.event, p⟩

def delChannel (ep : EPoll) (c : Channel) : EPoll := ep.ctlDel c.fd

variable {ep : EPoll} {fd fd' : Fd} {r r' : Registration}

theorem ctlMod_of_ne (h : fd' ≠ fd) : ep.ctlMod fd r fd' = ep fd' := by
  simp only [ctlMod]
  split
  · rfl
  · exact Function.update_of_ne h _ _

theorem ctlMod_of_none (h : ep fd = none) : ep.ctlMod fd r = ep := if_pos h

theorem ctlMod_self (h : ep fd ≠ none) : ep.ctlMod fd r fd = some r := by
  rw [ctlMod, if_neg h, Function.update_self]

theorem ctlMod_ctlMod : (ep.ctlMod fd r).ctlMod fd r' = ep.ctlMod fd r' := by
  by_cases h : ep fd = none
  · simp only [ctlMod_of_none h]
  · rw [ctlMod, if_neg (by rw [ctlMod_self h]; simp), ctlMod, ctlMod, if_neg h, if_neg h,
      Function.update_idem]

theorem ctlAdd_self (h : ep fd = none) : ep.ctlAdd fd r fd = some r := by
  rw [ctlAdd, if_pos h, Function.update_self]

theorem ctlAdd_of_ne (h : fd' ≠ fd) : ep.ctlAdd fd r fd' = ep fd' := by
  simp only [ctlAdd]
  split
  · exact Function.update_of_ne h _ _
  · rfl

end EPoll

end Codechiev
