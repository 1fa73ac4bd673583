/-!
# Where output goes

What a program prints goes to a writer as bytes, a line at a time. A writer can be anything that
takes bytes and may fail (`ClassLang.Writer`).

A `ClassLang.Sink` is a writer that keeps what it takes. It may be limited: it then takes only so
many bytes in all, keeps the part of a write that fits, and fails. It may also refuse to be flushed.
-/

namespace ClassLang

/-- Why a sink failed. -/
inductive SinkFault where
  /-- The sink has taken all it can. -/
  | full
  /-- The sink could not be flushed. -/
  | flushRefused
  /-- A writer has failed for a reason of its own. -/
  | other (text : String)
deriving DecidableEq, Repr

/-- The failure in words. -/
def SinkFault.text : SinkFault → String
  | full => "sink full"
  | flushRefused => "flush refused"
  | other text => text

/-- **What takes output.** Any writer will do that answers only to what was done with it before. -/
class Writer (W : Type) where
  /-- What becomes of a writer when bytes are written to it, also if that fails. -/
  write : W → ByteArray → W
  /-- Why bytes cannot be written to a writer, if they cannot. -/
  writeFault? : W → ByteArray → Option SinkFault
  /-- What becomes of a writer when it is flushed, also if that fails. -/
  flush : W → W
  /-- Why a writer cannot be flushed, if it cannot. -/
  flushFault? : W → Option SinkFault

/-- A sink and what was written to it. -/
structure Sink where
  /-- The bytes taken so far. -/
  written : ByteArray
  /-- How many bytes are taken in all, if that is limited. -/
  limit : Option Nat
  /-- Whether flushing fails. -/
  refusesFlush : Bool

namespace Sink

/-- A sink that takes everything. -/
def unlimited : Sink := { written := .empty, limit := none, refusesFlush := false }

/-- Whether the sink has room for all of `bytes`. -/
def fits (s : Sink) (bytes : ByteArray) : Bool :=
  match s.limit with
  | some limit => s.written.size + bytes.size ≤ limit
  | none => true

/-- Write as much of `bytes` as there is room for. -/
def write (s : Sink) (bytes : ByteArray) : Sink :=
  match s.limit with
  | some limit => { s with written := s.written ++ bytes.extract 0 (limit - s.written.size) }
  | none => { s with written := s.written ++ bytes }

@[default_instance]
instance : Writer Sink where
  write := write
  writeFault? s bytes := if s.fits bytes then none else some .full
  flush := id
  flushFault? s := if s.refusesFlush then some .flushRefused else none

@[simp] theorem writer_write (s : Sink) (bytes : ByteArray) :
    Writer.write s bytes = s.write bytes :=
  rfl

theorem writeFault?_of_fits {s : Sink} {bytes : ByteArray} (h : s.fits bytes = true) :
    Writer.writeFault? s bytes = none :=
  if_pos h

theorem writeFault?_of_not_fits {s : Sink} {bytes : ByteArray} (h : s.fits bytes = false) :
    Writer.writeFault? s bytes = some .full :=
  if_neg (Bool.eq_false_iff.mp h)

/-- The bytes from offset `start` on as a text. If the limit has cut a character, a replacement
character stands for what is left of it. -/
def textFrom (s : Sink) (start : Nat) : String :=
  let bytes := s.written.extract start s.written.size
  -- A character has at most four bytes, so at most three can be left of one.
  let whole := [0, 1, 2, 3].find? fun cut => (bytes.extract 0 (bytes.size - cut)).validateUTF8
  match whole with
  | some cut =>
    let text := (String.fromUTF8? (bytes.extract 0 (bytes.size - cut))).getD ""
    if cut = 0 then text else text ++ "\ufffd"
  | none => ""

/-- Everything written, as a text. -/
def text (s : Sink) : String := s.textFrom 0

end Sink

end ClassLang
